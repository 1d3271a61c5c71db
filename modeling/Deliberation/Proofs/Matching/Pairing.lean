import Deliberation.Matching.Match
import Deliberation.Proofs.Matching.BindingSet
import Deliberation.Proofs.Term.Variables
import Mathlib.Data.List.Perm.Subperm

/-!
# Matches as pairings

Both matches walk through a query and a candidate side by side and bind the
variables of the query on their way.  The walk itself does not look at what is
bound already: it fails, or it pairs variables with the terms in their place.
What is bound can then be read off the pairs, in the same way for both matches.
-/

namespace Deliberation

/-! ## The walks -/

namespace Match

open BindingSet (bindEach bindEach_append)

/-- The pairs of one walk and then those of another; each of the two may fail. -/
def join (first second : Option (List Binding)) : Option (List Binding) :=
  first.bind fun pairs => second.map (pairs ++ ·)

theorem join_eq_some_iff {first second : Option (List Binding)} {pairs : List Binding} :
    join first second = some pairs ↔
      ∃ front back, first = some front ∧ second = some back ∧ front ++ back = pairs := by
  cases first <;> cases second <;> simp [join]

/-- Binding the pairs of two walks is binding those of one and then those of the other. -/
theorem bind_join (s : Store) (b : BindingSet) (first second : Option (List Binding)) :
    (join first second).bind (bindEach s b) =
      (first.bind (bindEach s b)).bind fun b => second.bind (bindEach s b) := by
  cases first with
  | none => rfl
  | some front =>
      cases second with
      | none => cases h : bindEach s b front <;> simp [join, h]
      | some back => exact bindEach_append s b front back

/-- Walks through two lists side by side, each place `step` behind the one before it. -/
def joinAll {α β : Type} (step : Nat) (walk : Nat → α → β → Option (List Binding)) :
    Nat → List α → List β → Option (List Binding)
  | place, q :: qs, c :: cs => join (walk place q c) (joinAll step walk (place + step) qs cs)
  | _, _, _ => some []

section JoinAll

variable {α β : Type} {step place : Nat} {walk : Nat → α → β → Option (List Binding)}
  {queries : List α} {candidates : List β} {pairs : List Binding}

/-- Where all walks succeed together, each does. -/
theorem walk_of_joinAll (h : joinAll step walk place queries candidates = some pairs) {q : α}
    {c : β} (hqc : (q, c) ∈ queries.zip candidates) :
    ∃ index found, walk index q c = some found ∧ found ⊆ pairs := by
  induction queries generalizing place candidates pairs with
  | nil => cases hqc
  | cons r rs ih =>
      cases candidates with
      | nil => cases hqc
      | cons d ds =>
          obtain ⟨front, back, hfront, hback, rfl⟩ := join_eq_some_iff.1 h
          rcases List.mem_cons.1 hqc with hfirst | hrest
          · cases hfirst
            exact ⟨place, front, hfront, List.subset_append_left _ _⟩
          · obtain ⟨index, found, hfound, hsubset⟩ := ih hback hrest
            exact ⟨index, found, hfound, List.Subset.trans hsubset (List.subset_append_right _ _)⟩

/-- Every pair comes from one of the walks. -/
theorem exists_walk_of_mem (h : joinAll step walk place queries candidates = some pairs)
    {pair : Binding} (hpair : pair ∈ pairs) :
    ∃ q c, (q, c) ∈ queries.zip candidates ∧
      ∃ index found, walk index q c = some found ∧ pair ∈ found := by
  induction queries generalizing place candidates pairs with
  | nil =>
      cases h
      cases hpair
  | cons r rs ih =>
      cases candidates with
      | nil =>
          cases h
          cases hpair
      | cons d ds =>
          obtain ⟨front, back, hfront, hback, rfl⟩ := join_eq_some_iff.1 h
          rcases List.mem_append.1 hpair with hpair | hpair
          · exact ⟨r, d, List.mem_cons_self, place, front, hfront, hpair⟩
          · obtain ⟨q, c, hqc, hfound⟩ := ih hback hpair
            exact ⟨q, c, List.mem_cons_of_mem _ hqc, hfound⟩

theorem names_of_joinAll {vars : α → List Variable}
    (hlength : queries.length ≤ candidates.length)
    (hwalk : ∀ q ∈ queries, ∀ index c found, walk index q c = some found →
      found.map Binding.name = (vars q).map Variable.name)
    (h : joinAll step walk place queries candidates = some pairs) :
    pairs.map Binding.name = (queries.flatMap vars).map Variable.name := by
  induction queries generalizing place candidates pairs with
  | nil =>
      cases h
      rfl
  | cons r rs ih =>
      cases candidates with
      | nil => exact absurd hlength (Nat.not_succ_le_zero _)
      | cons d ds =>
          obtain ⟨front, back, hfront, hback, rfl⟩ := join_eq_some_iff.1 h
          obtain ⟨hfirst, hrest⟩ := List.forall_mem_cons.1 hwalk
          rw [List.map_append, List.flatMap_cons, List.map_append, hfirst place d front hfront,
            ih (Nat.le_of_succ_le_succ hlength) hrest hback]

/-- A query that has a candidate in its place is paired with one. -/
theorem exists_mem_zip (hlength : queries.length ≤ candidates.length) {q : α} (hq : q ∈ queries) :
    ∃ c, (q, c) ∈ queries.zip candidates := by
  induction queries generalizing candidates with
  | nil => cases hq
  | cons r rs ih =>
      cases candidates with
      | nil => exact absurd hlength (Nat.not_succ_le_zero _)
      | cons d ds =>
          rcases List.mem_cons.1 hq with rfl | hq
          · exact ⟨d, List.mem_cons_self⟩
          · obtain ⟨c, hc⟩ := ih (Nat.le_of_succ_le_succ hlength) hq
            exact ⟨c, List.mem_cons_of_mem _ hc⟩

end JoinAll

/-! ### The exact match -/

theorem sameOutline_iff {query candidate : Literal} :
    sameOutline query candidate = true ↔
      query.negated = candidate.negated ∧ query.arity = candidate.arity ∧
        query.argumentShapes = candidate.argumentShapes ∧
        query.annotationShapes = candidate.annotationShapes := by
  simp [sameOutline, and_assoc]

theorem sameHead_iff {query candidate : Literal} :
    sameHead query candidate = true ↔
      query.negated = candidate.negated ∧ query.functor = candidate.functor ∧
        query.arity = candidate.arity ∧
        query.annotations.length ≤ candidate.annotations.length := by
  simp [sameHead, and_assoc]

theorem bindable_iff {s : Store} {name : Path} {t : Term} :
    bindable s name t = true ↔ t.leadsOn s = false ∧ t.mentions name = false := by
  simp [bindable]

theorem length_annotations_of_sameOutline {query candidate : Literal}
    (h : sameOutline query candidate = true) :
    query.annotations.length = candidate.annotations.length := by
  have hshapes := congrArg List.length (sameOutline_iff.1 h).2.2.2
  simpa [Literal.annotationShapes] using hshapes

/-- The pair that an argument of the query makes with the term in its place. -/
def pairTerm (s : Store) (position : Nat) : Term → Term → Option (List Binding)
  | .var x, candidate => some [⟨x.name, candidate, [position]⟩]
  | ground, candidate =>
      if (ground.resolve s).equal s.heap (candidate.resolve s) then some [] else none

/-- The pairs that an annotation makes; all its arguments are at one place. -/
def pairAnnotated (s : Store) (position : Nat) (query candidate : Literal) :
    Option (List Binding) :=
  if query.functor = candidate.functor ∧ query.arity = candidate.arity then
    joinAll 0 (pairTerm s) position query.arguments candidate.arguments
  else none

/-- The pairs of the exact match. -/
def exactPairs (s : Store) (query candidate : Literal) : Option (List Binding) :=
  if sameOutline query candidate then
    join (joinAll 1 (pairTerm s) 0 query.arguments candidate.arguments)
      (joinAll 1 (pairAnnotated s) query.arity query.annotations candidate.annotations)
  else none

theorem exactTerm_eq (s : Store) (position : Nat) (query candidate : Term) (b : BindingSet) :
    exactTerm s position query candidate b =
      (pairTerm s position query candidate).bind (bindEach s b) := by
  cases query with
  | var x => simp [exactTerm, pairTerm, bindEach]
  | raw v => simp only [exactTerm, pairTerm]; split <;> rfl
  | lit l => simp only [exactTerm, pairTerm]; split <;> rfl

theorem exactArguments_eq (s : Store) (position : Nat) (queries candidates : List Term)
    (b : BindingSet) :
    exactArguments s position queries candidates b =
      (joinAll 1 (pairTerm s) position queries candidates).bind (bindEach s b) := by
  induction queries generalizing position candidates b with
  | nil => rfl
  | cons q qs ih =>
      cases candidates with
      | nil => rfl
      | cons c cs =>
          rw [exactArguments, joinAll, bind_join, exactTerm_eq]
          congr 1
          funext b
          exact ih (position + 1) cs b

theorem exactAt_eq (s : Store) (position : Nat) (queries candidates : List Term)
    (b : BindingSet) :
    exactAt s position queries candidates b =
      (joinAll 0 (pairTerm s) position queries candidates).bind (bindEach s b) := by
  induction queries generalizing candidates b with
  | nil => rfl
  | cons q qs ih =>
      cases candidates with
      | nil => rfl
      | cons c cs =>
          rw [exactAt, joinAll, bind_join, exactTerm_eq]
          congr 1
          funext b
          exact ih cs b

theorem exactAnnotations_eq (s : Store) (position : Nat) (queries candidates : List Literal)
    (b : BindingSet) :
    exactAnnotations s position queries candidates b =
      (joinAll 1 (pairAnnotated s) position queries candidates).bind (bindEach s b) := by
  induction queries generalizing position candidates b with
  | nil => rfl
  | cons q qs ih =>
      cases candidates with
      | nil => rfl
      | cons c cs =>
          rw [exactAnnotations, joinAll, bind_join, pairAnnotated]
          by_cases hhead : q.functor = c.functor ∧ q.arity = c.arity
          · rw [if_pos (by simpa using hhead), if_pos hhead, exactAt_eq]
            congr 1
            funext b
            exact ih (position + 1) cs b
          · rw [if_neg (by simpa using hhead), if_neg hhead]
            rfl

/-- The exact match binds its pairs. -/
theorem exact_eq (s : Store) (query candidate : Literal) :
    exact s query candidate =
      (exactPairs s query candidate).bind (bindEach s .empty) := by
  unfold exact exactPairs
  split
  · rw [bind_join, exactArguments_eq]
    congr 1
    funext b
    exact exactAnnotations_eq s _ _ _ b
  · rfl

/-! ### The structural match -/

mutual

def walkLiteral (s : Store) (position : List Nat) : Literal → Literal → Option (List Binding)
  | ⟨functor, arguments, annotations, negated, marked⟩, candidate =>
      if sameHead ⟨functor, arguments, annotations, negated, marked⟩ candidate then
        join (walkArguments s position 0 arguments candidate.arguments)
          (walkAnnotations s position arguments.length annotations candidate.annotations)
      else none
termination_by structural query => query

def walkTerm (s : Store) (position : List Nat) : Term → Term → Option (List Binding)
  | .var x, candidate =>
      let candidate := candidate.resolve s
      if bindable s x.name candidate then some [⟨x.name, candidate, position⟩] else none
  | .lit query, candidate =>
      match candidate.resolve s with
      | .lit candidate => walkLiteral s position query candidate
      | _ => none
  | .raw v, candidate =>
      match candidate.resolve s with
      | .raw w => if s.heap.equal v w then some [] else none
      | _ => none
termination_by structural query => query

def walkArguments (s : Store) (position : List Nat) :
    Nat → List Term → List Term → Option (List Binding)
  | index, q :: qs, c :: cs =>
      join (walkTerm s (position ++ [index]) q c) (walkArguments s position (index + 1) qs cs)
  | _, _, _ => some []
termination_by structural _ queries => queries

def walkAnnotations (s : Store) (position : List Nat) :
    Nat → List Literal → List Literal → Option (List Binding)
  | index, q :: qs, c :: cs =>
      join (walkLiteral s (position ++ [index]) q c)
        (walkAnnotations s position (index + 1) qs cs)
  | _, _, _ => some []
termination_by structural _ queries => queries

end

mutual

theorem structuralLiteral_eq (s : Store) (position : List Nat) :
    ∀ (query candidate : Literal) (b : BindingSet), structuralLiteral s position query candidate b =
      (walkLiteral s position query candidate).bind (bindEach s b)
  | ⟨functor, arguments, annotations, negated, marked⟩, candidate, b => by
      rw [structuralLiteral, walkLiteral]
      split
      · rw [bind_join, structuralArguments_eq s position 0 arguments]
        congr 1
        funext b
        exact structuralAnnotations_eq s position arguments.length annotations _ b
      · rfl
termination_by structural query => query

theorem structuralTerm_eq (s : Store) (position : List Nat) :
    ∀ (query candidate : Term) (b : BindingSet), structuralTerm s position query candidate b =
      (walkTerm s position query candidate).bind (bindEach s b)
  | .var x, candidate, b => by
      rw [structuralTerm, walkTerm]
      split
      · simp [bindEach]
      · rfl
  | .lit query, candidate, b => by
      rw [structuralTerm, walkTerm]
      cases candidate.resolve s with
      | raw w => rfl
      | var y => rfl
      | lit l => exact structuralLiteral_eq s position query l b
  | .raw v, candidate, b => by
      rw [structuralTerm, walkTerm]
      cases candidate.resolve s with
      | raw w => dsimp only; split <;> rfl
      | var y => rfl
      | lit l => rfl
termination_by structural query => query

theorem structuralArguments_eq (s : Store) (position : List Nat) :
    ∀ (index : Nat) (queries candidates : List Term) (b : BindingSet),
      structuralArguments s position index queries candidates b =
        (walkArguments s position index queries candidates).bind (bindEach s b)
  | _, [], _, _ => rfl
  | _, q :: qs, [], _ => rfl
  | index, q :: qs, c :: cs, b => by
      rw [structuralArguments, walkArguments, bind_join,
        structuralTerm_eq s (position ++ [index]) q c b]
      congr 1
      funext b
      exact structuralArguments_eq s position (index + 1) qs cs b
termination_by structural _ queries => queries

theorem structuralAnnotations_eq (s : Store) (position : List Nat) :
    ∀ (index : Nat) (queries candidates : List Literal) (b : BindingSet),
      structuralAnnotations s position index queries candidates b =
        (walkAnnotations s position index queries candidates).bind (bindEach s b)
  | _, [], _, _ => rfl
  | _, q :: qs, [], _ => rfl
  | index, q :: qs, c :: cs, b => by
      rw [structuralAnnotations, walkAnnotations, bind_join,
        structuralLiteral_eq s (position ++ [index]) q c b]
      congr 1
      funext b
      exact structuralAnnotations_eq s position (index + 1) qs cs b
termination_by structural _ queries => queries

end

/-- The structural match binds its pairs. -/
theorem structural_eq (s : Store) (query candidate : Literal) :
    structural s query candidate =
      (walkLiteral s [] query candidate).bind (bindEach s .empty) :=
  structuralLiteral_eq s [] query candidate .empty

/-! ### What a walk finds -/

section Inversion

variable {s : Store}

theorem pairTerm_eq_some_iff {position : Nat} {query candidate : Term} {pairs : List Binding} :
    pairTerm s position query candidate = some pairs ↔
      (∃ x, query = .var x ∧ [⟨x.name, candidate, [position]⟩] = pairs) ∨
      (query.direct = [] ∧ query.equal s.heap (candidate.resolve s) = true ∧ [] = pairs) := by
  cases query with
  | var x => simp [pairTerm, Term.direct]
  | raw v => simp [pairTerm, Term.direct]
  | lit l => simp [pairTerm, Term.direct]

theorem pairAnnotated_eq_some_iff {position : Nat} {query candidate : Literal}
    {pairs : List Binding} :
    pairAnnotated s position query candidate = some pairs ↔
      (query.functor = candidate.functor ∧ query.arity = candidate.arity) ∧
        joinAll 0 (pairTerm s) position query.arguments candidate.arguments = some pairs :=
  Option.ite_none_right_eq_some

theorem exactPairs_eq_some_iff {query candidate : Literal} {pairs : List Binding} :
    exactPairs s query candidate = some pairs ↔
      sameOutline query candidate = true ∧ ∃ front back,
        joinAll 1 (pairTerm s) 0 query.arguments candidate.arguments = some front ∧
        joinAll 1 (pairAnnotated s) query.arity query.annotations candidate.annotations =
          some back ∧ front ++ back = pairs := by
  rw [exactPairs, Option.ite_none_right_eq_some, join_eq_some_iff]

theorem walkTerm_eq_some_iff {position : List Nat} {query candidate : Term}
    {pairs : List Binding} :
    walkTerm s position query candidate = some pairs ↔
      (∃ x, query = .var x ∧ bindable s x.name (candidate.resolve s) = true ∧
        [⟨x.name, candidate.resolve s, position⟩] = pairs) ∨
      (∃ v w, query = .raw v ∧ candidate.resolve s = .raw w ∧ s.heap.equal v w = true ∧
        [] = pairs) ∨
      (∃ l m, query = .lit l ∧ candidate.resolve s = .lit m ∧
        walkLiteral s position l m = some pairs) := by
  cases query with
  | var x => simp [walkTerm]
  | raw v => cases hresolve : candidate.resolve s <;> simp [walkTerm, hresolve]
  | lit l => cases hresolve : candidate.resolve s <;> simp [walkTerm, hresolve]

theorem walkArguments_eq (s : Store) (position : List Nat) (index : Nat)
    (queries candidates : List Term) :
    walkArguments s position index queries candidates =
      joinAll 1 (fun i => walkTerm s (position ++ [i])) index queries candidates := by
  induction queries generalizing index candidates with
  | nil => rfl
  | cons q qs ih =>
      cases candidates with
      | nil => rfl
      | cons c cs => rw [walkArguments, joinAll, ih]

theorem walkAnnotations_eq (s : Store) (position : List Nat) (index : Nat)
    (queries candidates : List Literal) :
    walkAnnotations s position index queries candidates =
      joinAll 1 (fun i => walkLiteral s (position ++ [i])) index queries candidates := by
  induction queries generalizing index candidates with
  | nil => rfl
  | cons q qs ih =>
      cases candidates with
      | nil => rfl
      | cons c cs => rw [walkAnnotations, joinAll, ih]

theorem walkLiteral_eq (s : Store) (position : List Nat) (query candidate : Literal) :
    walkLiteral s position query candidate =
      if sameHead query candidate then
        join
          (joinAll 1 (fun i => walkTerm s (position ++ [i])) 0 query.arguments candidate.arguments)
          (joinAll 1 (fun i => walkLiteral s (position ++ [i])) query.arity query.annotations
            candidate.annotations)
      else none := by
  obtain ⟨functor, arguments, annotations, negated, marked⟩ := query
  rw [walkLiteral, walkArguments_eq, walkAnnotations_eq]
  rfl

theorem walkLiteral_eq_some_iff {position : List Nat} {query candidate : Literal}
    {pairs : List Binding} :
    walkLiteral s position query candidate = some pairs ↔
      sameHead query candidate = true ∧ ∃ front back,
        joinAll 1 (fun i => walkTerm s (position ++ [i])) 0 query.arguments candidate.arguments =
          some front ∧
        joinAll 1 (fun i => walkLiteral s (position ++ [i])) query.arity query.annotations
          candidate.annotations = some back ∧ front ++ back = pairs := by
  rw [walkLiteral_eq, Option.ite_none_right_eq_some, join_eq_some_iff]

end Inversion

/-! ### The names in the pairs -/

section Names

variable {s : Store}

theorem names_pairTerm {position : Nat} {query candidate : Term} {pairs : List Binding}
    (h : pairTerm s position query candidate = some pairs) :
    pairs.map Binding.name = query.direct.map Variable.name := by
  rcases pairTerm_eq_some_iff.1 h with ⟨x, rfl, rfl⟩ | ⟨hdirect, -, rfl⟩
  · rfl
  · rw [hdirect]
    rfl

/-- The exact match pairs the variables that are arguments themselves. -/
theorem names_exactPairs {query candidate : Literal} {pairs : List Binding}
    (h : exactPairs s query candidate = some pairs) :
    pairs.map Binding.name = query.directVars.map Variable.name := by
  obtain ⟨houtline, front, back, hfront, hback, rfl⟩ := exactPairs_eq_some_iff.1 h
  have harity := (sameOutline_iff.1 houtline).2.1
  have hcount := length_annotations_of_sameOutline houtline
  rw [List.map_append, Literal.directVars, List.map_append]
  congr 1
  · exact names_of_joinAll (Nat.le_of_eq harity) (fun _ _ _ _ _ => names_pairTerm) hfront
  · refine names_of_joinAll (Nat.le_of_eq hcount) ?_ hback
    intro a _ index c found hfound
    obtain ⟨⟨-, harity⟩, hfound⟩ := pairAnnotated_eq_some_iff.1 hfound
    exact names_of_joinAll (Nat.le_of_eq harity) (fun _ _ _ _ _ => names_pairTerm) hfound

/-- The structural match pairs all variables. -/
theorem names_walkLiteral {position : List Nat} {query candidate : Literal}
    {pairs : List Binding} (h : walkLiteral s position query candidate = some pairs) :
    pairs.map Binding.name = query.occurrences.map Variable.name := by
  induction query using Literal.induction generalizing position candidate pairs with
  | step query harguments hannotations =>
      obtain ⟨hhead, front, back, hfront, hback, rfl⟩ := walkLiteral_eq_some_iff.1 h
      obtain ⟨-, -, harity, hfewer⟩ := sameHead_iff.1 hhead
      -- every argument and every annotation of the query has a partner, so none is left out
      rw [List.map_append, Literal.occurrences_eq, List.map_append]
      congr 1
      · refine names_of_joinAll (Nat.le_of_eq harity) ?_ hfront
        intro t ht index c found hfound
        rcases walkTerm_eq_some_iff.1 hfound with
          ⟨x, rfl, -, rfl⟩ | ⟨v, w, rfl, -, -, rfl⟩ | ⟨l, m, rfl, -, hfound⟩
        · rfl
        · rfl
        · exact harguments l ht hfound
      · exact names_of_joinAll hfewer (fun a ha _ _ _ => hannotations a ha) hback

end Names

/-! ### The terms in the pairs -/

section Shows

variable {s : Store} {l : Literal}

theorem shows_of_pairTerm {position : Nat} {query candidate : Term}
    (hcandidate : candidate ∈ l.arguments) {pairs : List Binding}
    (h : pairTerm s position query candidate = some pairs) :
    ∀ pair ∈ pairs, l.Shows s (pair.value.resolve s) := by
  rcases pairTerm_eq_some_iff.1 h with ⟨x, rfl, rfl⟩ | ⟨-, -, rfl⟩
  · intro pair hpair
    rw [List.mem_singleton.1 hpair]
    exact .argument hcandidate
  · exact fun _ hpair => absurd hpair List.not_mem_nil

/-- The exact match pairs with terms that the candidate shows. -/
theorem shows_of_exactPairs {query : Literal} {pairs : List Binding}
    (h : exactPairs s query l = some pairs) :
    ∀ pair ∈ pairs, l.Shows s (pair.value.resolve s) := by
  obtain ⟨-, front, back, hfront, hback, rfl⟩ := exactPairs_eq_some_iff.1 h
  intro pair hpair
  rcases List.mem_append.1 hpair with hpair | hpair
  · obtain ⟨t, c, htc, _, _, hfound, hpair⟩ := exists_walk_of_mem hfront hpair
    exact shows_of_pairTerm (List.of_mem_zip htc).2 hfound pair hpair
  · obtain ⟨a, c, hac, _, _, hfound, hpair⟩ := exists_walk_of_mem hback hpair
    obtain ⟨-, hfound⟩ := pairAnnotated_eq_some_iff.1 hfound
    obtain ⟨t, d, htd, _, _, hfound, hpair⟩ := exists_walk_of_mem hfound hpair
    exact .annotated (List.of_mem_zip hac).2
      (shows_of_pairTerm (List.of_mem_zip htd).2 hfound pair hpair)

/-- The structural match pairs with terms that the candidate shows. -/
theorem shows_of_walkLiteral {position : List Nat} {query : Literal} {pairs : List Binding}
    (h : walkLiteral s position query l = some pairs) :
    ∀ pair ∈ pairs, l.Shows s (pair.value.resolve s) := by
  induction query using Literal.induction generalizing position l pairs with
  | step query harguments hannotations =>
      obtain ⟨-, front, back, hfront, hback, rfl⟩ := walkLiteral_eq_some_iff.1 h
      intro pair hpair
      rcases List.mem_append.1 hpair with hpair | hpair
      · obtain ⟨t, c, htc, _, _, hfound, hpair⟩ := exists_walk_of_mem hfront hpair
        obtain ⟨ht, hc⟩ := List.of_mem_zip htc
        rcases walkTerm_eq_some_iff.1 hfound with
          ⟨x, rfl, -, rfl⟩ | ⟨v, w, rfl, -, -, rfl⟩ | ⟨k, m, rfl, hresolve, hfound⟩
        · rw [List.mem_singleton.1 hpair]
          exact .resolved (.argument hc)
        · cases hpair
        · exact .nested hc hresolve (harguments k ht hfound pair hpair)
      · obtain ⟨a, c, hac, _, _, hfound, hpair⟩ := exists_walk_of_mem hback hpair
        obtain ⟨ha, hc⟩ := List.of_mem_zip hac
        exact .annotated hc (hannotations a ha hfound pair hpair)

end Shows

/-! ### Bindings -/

section Bindings

variable {s : Store} {query candidate : Literal} {b : BindingSet}

/-- What the structural match binds are the pairs of its walk. -/
theorem pairs_of_structural (h : structural s query candidate = some b) :
    ∃ pairs, walkLiteral s [] query candidate = some pairs ∧
      bindEach s .empty pairs = some b := by
  rw [structural_eq] at h
  exact Option.bind_eq_some_iff.1 h

/-- What a match binds are the pairs of one of the two walks. -/
theorem pairs_of_bind (h : bind s query candidate = some b) :
    ∃ pairs, (exactPairs s query candidate = some pairs ∨
        walkLiteral s [] query candidate = some pairs) ∧
      bindEach s .empty pairs = some b := by
  unfold bind at h
  cases hexact : exact s query candidate with
  | some found =>
      rw [hexact] at h
      cases h
      rw [exact_eq] at hexact
      obtain ⟨pairs, hpairs, hbind⟩ := Option.bind_eq_some_iff.1 hexact
      exact ⟨pairs, .inl hpairs, hbind⟩
  | none =>
      rw [hexact] at h
      obtain ⟨pairs, hpairs, hbind⟩ := pairs_of_structural h
      exact ⟨pairs, .inr hpairs, hbind⟩

/-- A match binds variables of the query, each once, to terms that the candidate shows. -/
structure Drawn (s : Store) (query candidate : Literal) (b : BindingSet) : Prop where
  nodup : b.names.Nodup
  named : ∀ {name t}, b.get? name = some t → ∃ x ∈ query.occurrences, x.name = name
  shown : ∀ {name t}, b.get? name = some t → candidate.Shows s t

theorem drawn_of_bindEach {pairs : List Binding} {vars : List Variable}
    (hvars : vars ⊆ query.occurrences) (hnames : pairs.map Binding.name = vars.map Variable.name)
    (hshown : ∀ pair ∈ pairs, candidate.Shows s (pair.value.resolve s))
    (h : BindingSet.bindEach s .empty pairs = some b) : Drawn s query candidate b where
  nodup := BindingSet.nodup_names_of_bindEach h List.nodup_nil
  named {name t} ht := by
    have hname : name ∈ b.names := by
      rw [← BindingSet.get?_isSome_iff, ht]
      rfl
    rw [BindingSet.mem_names_of_bindEach h, hnames] at hname
    obtain ⟨x, hx, rfl⟩ := List.mem_map.1 hname
    exact ⟨x, hvars hx, rfl⟩
  shown ht := BindingSet.forall_of_bindEach hshown h ht

theorem drawn_of_bind (h : bind s query candidate = some b) : Drawn s query candidate b := by
  obtain ⟨pairs, hpairs, hbind⟩ := pairs_of_bind h
  rcases hpairs with hexact | hwalk
  · exact drawn_of_bindEach query.directVars_subset (names_exactPairs hexact)
      (shows_of_exactPairs hexact) hbind
  · exact drawn_of_bindEach (List.Subset.refl _) (names_walkLiteral hwalk)
      (shows_of_walkLiteral hwalk) hbind

theorem Drawn.names_subset (h : Drawn s query candidate b) :
    b.names ⊆ query.vars.map Variable.name := by
  intro name hname
  obtain ⟨t, ht⟩ := Option.isSome_iff_exists.1 ((b.get?_isSome_iff name).2 hname)
  obtain ⟨y, hy, rfl⟩ := h.named ht
  exact (Variable.mem_names_distinct _ _).2 (List.mem_map_of_mem hy)

/-- A match that binds as many names as the query has binds all of them. -/
theorem Drawn.isSome_get? (h : Drawn s query candidate b) (hsize : b.size = query.vars.length)
    {x : Variable} (hx : x ∈ query.occurrences) : (b.get? x.name).isSome := by
  -- Different names, all of them the query's and as many as it has, are all its names.
  have hperm := (h.nodup.subperm h.names_subset).perm_of_length_le (by
    rw [List.length_map, BindingSet.names, List.length_map]
    exact Nat.le_of_eq hsize.symm)
  rw [BindingSet.get?_isSome_iff, hperm.mem_iff]
  exact (Variable.mem_names_distinct _ _).2 (List.mem_map_of_mem hx)

end Bindings

end Match

end Deliberation
