import Deliberation.Proofs.Matching.Instance
import Deliberation.Proofs.Term.Resolution

/-!
# What the structural match finds

The structural match succeeds on the candidates that an assignment of terms to
the variables of the query makes out of it, where candidates are seen through
their bound variables.  It then gives such an assignment, with a path for every
variable: from the root of the query the path leads to the first place of the
variable, and from the root of the candidate to the term that it is bound to.
-/

namespace Deliberation

/-! ## Paths -/

/-- The parts of a literal: its arguments, and then its annotations. -/
def Literal.parts (l : Literal) : List Term := l.arguments ++ l.annotations.map .lit

/-- The term that a path leads to, where every part on the way is taken as `see` shows it. -/
def Term.at? (see : Term → Term) : List Nat → Term → Option Term
  | [], t => some t
  | index :: path, .lit l => l.parts[index]?.bind fun t => Term.at? see path (see t)
  | _ :: _, _ => none

/-- A variable with the name is at the end of a path, and none at the end of an earlier path. -/
structure Literal.FirstAt (l : Literal) (name : Path) (path : List Nat) : Prop where
  found : ∃ x, (Term.lit l).at? id path = some (.var x) ∧ x.name = name
  least : ∀ other x, (Term.lit l).at? id other = some (.var x) → x.name = name → path ≤ other

theorem Literal.mem_parts {l m : Literal} (h : .lit m ∈ l.parts) :
    .lit m ∈ l.arguments ∨ m ∈ l.annotations := by
  simpa [Literal.parts] using h

/-! ## Instances with variables -/

mutual

/--
Whether a candidate is a term with the terms that `σ` gives in the place of
variables.  A candidate is taken as the end of its chain of bound variables, and a
variable stands for no term that it occurs in.
-/
inductive Term.Accepts (s : Store) (σ : Path → Term) : Term → Term → Prop
  | var {x : Variable} {candidate t : Term} (hresolve : candidate.ResolvesTo s t)
      (hapart : t.mentions x.name = false) (hequal : (σ x.name).equal s.heap t = true) :
      Term.Accepts s σ (.var x) candidate
  | raw {v w : Value} {candidate : Term} (hresolve : candidate.ResolvesTo s (.raw w))
      (hequal : s.heap.equal v w = true) : Term.Accepts s σ (.raw v) candidate
  | lit {l m : Literal} {candidate : Term} (hresolve : candidate.ResolvesTo s (.lit m))
      (hinside : Literal.Accepts s σ l m) : Term.Accepts s σ (.lit l) candidate

/-- Whether a literal is an instance of a query with the terms that `σ` gives. -/
inductive Literal.Accepts (s : Store) (σ : Path → Term) : Literal → Literal → Prop
  | intro {query candidate : Literal} (hfunctor : query.functor = candidate.functor)
      (hnegated : query.negated = candidate.negated) (harity : query.arity = candidate.arity)
      (hfewer : query.annotations.length ≤ candidate.annotations.length)
      (harguments : ∀ t c, (t, c) ∈ query.arguments.zip candidate.arguments →
        Term.Accepts s σ t c)
      (hannotations : ∀ a c, (a, c) ∈ query.annotations.zip candidate.annotations →
        Literal.Accepts s σ a c) :
      Literal.Accepts s σ query candidate

end

namespace Match

variable {s : Store} {σ : Path → Term}

theorem admits_walkTerm_iff {position : List Nat} {t c : Term}
    (hinside : ∀ l m, t = .lit l →
      (Admits s σ (walkLiteral s position l m) ↔ l.Accepts s σ m)) :
    Admits s σ (walkTerm s position t c) ↔ t.Accepts s σ c := by
  constructor
  · rintro ⟨pairs, hwalk, hagree⟩
    rcases walkTerm_eq_some_iff.1 hwalk with
      ⟨x, rfl, hbindable, rfl⟩ | ⟨v, w, rfl, hresolve, hequal, rfl⟩ | ⟨l, m, rfl, hresolve, hwalk⟩
    · obtain ⟨hend, hapart⟩ := bindable_iff.1 hbindable
      have hequal := hagree _ List.mem_cons_self
      rw [Term.resolve_of_leadsOn hend] at hequal
      exact .var (Term.resolvesTo_iff.2 ⟨rfl, hend⟩) hapart hequal
    · exact .raw (Term.resolvesTo_iff.2 ⟨hresolve, rfl⟩) hequal
    · exact .lit (Term.resolvesTo_iff.2 ⟨hresolve, rfl⟩)
        ((hinside l m rfl).1 ⟨pairs, hwalk, hagree⟩)
  · intro h
    cases h with
    | var hresolve hapart hequal =>
        obtain ⟨rfl, hend⟩ := Term.resolvesTo_iff.1 hresolve
        refine ⟨_, walkTerm_eq_some_iff.2 (.inl ⟨_, rfl, bindable_iff.2 ⟨hend, hapart⟩, rfl⟩), ?_⟩
        intro pair hpair
        rw [List.mem_singleton.1 hpair, Term.resolve_of_leadsOn hend]
        exact hequal
    | raw hresolve hequal =>
        obtain ⟨hresolve, -⟩ := Term.resolvesTo_iff.1 hresolve
        exact ⟨[], walkTerm_eq_some_iff.2 (.inr (.inl ⟨_, _, rfl, hresolve, hequal, rfl⟩)), nofun⟩
    | lit hresolve haccepts =>
        obtain ⟨hresolve, -⟩ := Term.resolvesTo_iff.1 hresolve
        obtain ⟨pairs, hwalk, hagree⟩ := (hinside _ _ rfl).2 haccepts
        exact ⟨pairs, walkTerm_eq_some_iff.2 (.inr (.inr ⟨_, _, rfl, hresolve, hwalk⟩)), hagree⟩

/-- The structural walk succeeds on instances, with pairs as the assignment has them. -/
theorem admits_walkLiteral_iff {position : List Nat} {query candidate : Literal} :
    Admits s σ (walkLiteral s position query candidate) ↔ query.Accepts s σ candidate := by
  induction query using Literal.induction generalizing position candidate with
  | step query harguments hannotations =>
      have hterms : ∀ t c, (t, c) ∈ query.arguments.zip candidate.arguments → ∀ index,
          Admits s σ (walkTerm s (position ++ [index]) t c) ↔ t.Accepts s σ c := by
        intro t c htc index
        refine admits_walkTerm_iff ?_
        rintro l m rfl
        exact harguments l (List.of_mem_zip htc).1
      have hliterals : ∀ a c, (a, c) ∈ query.annotations.zip candidate.annotations → ∀ index,
          Admits s σ (walkLiteral s (position ++ [index]) a c) ↔ a.Accepts s σ c :=
        fun a c hac index => hannotations a (List.of_mem_zip hac).1
      rw [walkLiteral_eq, admits_ite, admits_join, admits_joinAll hterms, admits_joinAll hliterals,
        sameHead_iff]
      constructor
      · rintro ⟨⟨hnegated, hfunctor, harity, hfewer⟩, hterms, hliterals⟩
        exact .intro hfunctor hnegated harity hfewer hterms hliterals
      · rintro ⟨hfunctor, hnegated, harity, hfewer, hterms, hliterals⟩
        exact ⟨⟨hnegated, hfunctor, harity, hfewer⟩, hterms, hliterals⟩

/-! ## Where the pairs come from -/

/-- Pairs that stand for the variables of a query in the order of their paths. -/
structure Charts (s : Store) (position : List Nat) (query candidate : Term)
    (pairs : List Binding) : Prop where
  sorted : pairs.Pairwise fun a b => a.position < b.position
  sound : ∀ pair ∈ pairs, ∃ path x, pair.position = position ++ path ∧
    query.at? id path = some (.var x) ∧ x.name = pair.name ∧
    candidate.at? (Term.resolve s) path = some (pair.value.resolve s)
  complete : ∀ path x, query.at? id path = some (.var x) →
    ∃ pair ∈ pairs, pair.position = position ++ path ∧ pair.name = x.name
  settled : ∀ pair ∈ pairs, pair.value.leadsOn s = false

section Parts

variable {α β γ δ : Type} {step place : Nat} {walk : Nat → α → β → Option (List Binding)}

theorem join_assoc (first second third : Option (List Binding)) :
    join (join first second) third = join first (join second third) := by
  cases first <;> cases second <;> cases third <;> simp [join]

theorem joinAll_append {queries queries' : List α} {candidates candidates' : List β}
    (hlength : queries.length = candidates.length) :
    joinAll step walk place (queries ++ queries') (candidates ++ candidates') =
      join (joinAll step walk place queries candidates)
        (joinAll step walk (place + step * queries.length) queries' candidates') := by
  induction queries generalizing place candidates with
  | nil =>
      cases candidates with
      | nil => cases h : joinAll step walk place queries' candidates' <;> simp [joinAll, join, h]
      | cons d ds => cases hlength
  | cons r rs ih =>
      cases candidates with
      | nil => cases hlength
      | cons d ds =>
          have hplace : place + step * (rs.length + 1) = place + step + step * rs.length := by
            rw [Nat.mul_succ]
            omega
          simp only [List.cons_append, joinAll, List.length_cons, join_assoc, hplace,
            ih (Nat.succ.inj hlength)]

theorem joinAll_map_map {f : γ → α} {g : δ → β} {queries : List γ} {candidates : List δ} :
    joinAll step walk place (queries.map f) (candidates.map g) =
      joinAll step (fun i q c => walk i (f q) (g c)) place queries candidates := by
  induction queries generalizing place candidates with
  | nil => rfl
  | cons r rs ih =>
      cases candidates with
      | nil => rfl
      | cons d ds => simp only [List.map_cons, joinAll, ih]

/-- The pairs of all walks are those of each in turn. -/
theorem exists_found_of_joinAll {queries : List α} {candidates : List β} {pairs : List Binding}
    (hlength : queries.length ≤ candidates.length)
    (h : joinAll 1 walk place queries candidates = some pairs) :
    ∃ found : Nat → List Binding, pairs = (List.range queries.length).flatMap found ∧
      ∀ i q c, queries[i]? = some q → candidates[i]? = some c →
        walk (place + i) q c = some (found i) := by
  induction queries generalizing place candidates pairs with
  | nil =>
      cases h
      exact ⟨fun _ => [], rfl, nofun⟩
  | cons r rs ih =>
      cases candidates with
      | nil => cases hlength
      | cons d ds =>
          obtain ⟨front, back, hfront, hback, rfl⟩ := join_eq_some_iff.1 h
          obtain ⟨found, rfl, hfound⟩ := ih (Nat.le_of_succ_le_succ hlength) hback
          refine ⟨fun i => Nat.casesOn i front found, ?_, ?_⟩
          · rw [List.length_cons, List.range_succ_eq_map, List.flatMap_cons, List.flatMap_map]
            rfl
          · rintro (_ | i) q c hq hc
            · cases hq
              cases hc
              exact hfront
            · rw [← Nat.succ_add_eq_add_succ]
              exact hfound i q c hq hc

end Parts

/-- The walk through a literal is the walk through its parts. -/
theorem walkLiteral_eq_parts (s : Store) (position : List Nat) (query candidate : Literal) :
    walkLiteral s position query candidate =
      if sameHead query candidate then
        joinAll 1 (fun i => walkTerm s (position ++ [i])) 0 query.parts candidate.parts
      else none := by
  rw [walkLiteral_eq]
  by_cases hhead : sameHead query candidate = true
  · have harity : query.arguments.length = candidate.arguments.length :=
      (sameHead_iff.1 hhead).2.2.1
    rw [if_pos hhead, if_pos hhead, Literal.parts, Literal.parts, joinAll_append harity,
      joinAll_map_map]
    simp only [walkTerm, Term.resolve_lit, Nat.zero_add, Nat.one_mul]
    rfl
  · rw [if_neg hhead, if_neg hhead]

/-- The charts of all parts make up the chart of a literal. -/
theorem charts_of_parts {position : List Nat} {query candidate : Literal}
    {found : Nat → List Binding}
    (hpart : ∀ i < query.parts.length, ∃ t c, query.parts[i]? = some t ∧
      candidate.parts[i]? = some c ∧ Charts s (position ++ [i]) t (c.resolve s) (found i)) :
    Charts s position (.lit query) (.lit candidate)
      ((List.range query.parts.length).flatMap found) where
  sorted := by
    rw [List.pairwise_flatMap]
    constructor
    · intro i hi
      obtain ⟨t, c, -, -, hchart⟩ := hpart i (List.mem_range.1 hi)
      exact hchart.sorted
    · refine List.pairwise_lt_range.imp_of_mem ?_
      intro i j hi hj hij first hfirst second hsecond
      -- the index of the part decides between paths through different parts
      obtain ⟨t, c, -, -, hchart⟩ := hpart i (List.mem_range.1 hi)
      obtain ⟨u, d, -, -, hchart'⟩ := hpart j (List.mem_range.1 hj)
      obtain ⟨path, x, hposition, -⟩ := hchart.sound first hfirst
      obtain ⟨path', y, hposition', -⟩ := hchart'.sound second hsecond
      rw [hposition, hposition', List.append_assoc, List.append_assoc]
      exact List.append_left_lt (List.cons_lt_cons_iff.2 (.inl hij))
  sound := by
    intro pair hpair
    obtain ⟨i, hi, hpair⟩ := List.mem_flatMap.1 hpair
    obtain ⟨t, c, ht, hc, hchart⟩ := hpart i (List.mem_range.1 hi)
    obtain ⟨path, x, hposition, hquery, hname, hcandidate⟩ := hchart.sound pair hpair
    refine ⟨i :: path, x, ?_, ?_, hname, ?_⟩
    · rw [hposition, List.append_assoc]
      rfl
    · rw [Term.at?, ht]
      exact hquery
    · rw [Term.at?, hc]
      exact hcandidate
  complete := by
    intro path x hquery
    cases path with
    | nil => cases hquery
    | cons i path =>
        rw [Term.at?] at hquery
        obtain ⟨t, ht, hquery⟩ := Option.bind_eq_some_iff.1 hquery
        obtain ⟨hi, -⟩ := List.getElem?_eq_some_iff.1 ht
        obtain ⟨u, c, hu, -, hchart⟩ := hpart i hi
        cases ht.symm.trans hu
        obtain ⟨pair, hpair, hposition, hname⟩ := hchart.complete path x hquery
        refine ⟨pair, List.mem_flatMap.2 ⟨i, List.mem_range.2 hi, hpair⟩, ?_, hname⟩
        rw [hposition, List.append_assoc]
        rfl
  settled := by
    intro pair hpair
    obtain ⟨i, hi, hpair⟩ := List.mem_flatMap.1 hpair
    obtain ⟨t, c, -, -, hchart⟩ := hpart i (List.mem_range.1 hi)
    exact hchart.settled pair hpair

theorem charts_walkTerm {position : List Nat} {t c : Term}
    {pairs : List Binding}
    (hinside : ∀ l m, t = .lit l → walkLiteral s position l m = some pairs →
      Charts s position (.lit l) (.lit m) pairs)
    (h : walkTerm s position t c = some pairs) : Charts s position t (c.resolve s) pairs := by
  rcases walkTerm_eq_some_iff.1 h with
    ⟨x, rfl, hbindable, rfl⟩ | ⟨v, w, rfl, -, -, rfl⟩ | ⟨l, m, rfl, hresolve, hwalk⟩
  · have hend := (bindable_iff.1 hbindable).1
    refine ⟨List.pairwise_singleton _ _, ?_, ?_, ?_⟩
    · intro pair hpair
      rw [List.mem_singleton.1 hpair]
      refine ⟨[], x, (List.append_nil _).symm, rfl, rfl, ?_⟩
      rw [Term.resolve_of_leadsOn hend]
      rfl
    · intro path y hy
      cases path with
      | nil =>
          cases hy
          exact ⟨_, List.mem_cons_self, (List.append_nil _).symm, rfl⟩
      | cons i path => cases hy
    · intro pair hpair
      rw [List.mem_singleton.1 hpair]
      exact hend
  · refine ⟨.nil, nofun, ?_, nofun⟩
    intro path y hy
    cases path <;> cases hy
  · rw [hresolve]
    exact hinside l m rfl hwalk

theorem charts_walkLiteral {position : List Nat}
    {query candidate : Literal} {pairs : List Binding}
    (h : walkLiteral s position query candidate = some pairs) :
    Charts s position (.lit query) (.lit candidate) pairs := by
  induction query using Literal.induction generalizing position candidate pairs with
  | step query harguments hannotations =>
      rw [walkLiteral_eq_parts, Option.ite_none_right_eq_some] at h
      obtain ⟨hhead, h⟩ := h
      obtain ⟨-, -, harity, hfewer⟩ := sameHead_iff.1 hhead
      have hlength : query.parts.length ≤ candidate.parts.length := by
        rw [Literal.arity, Literal.arity] at harity
        simp only [Literal.parts, List.length_append, List.length_map]
        omega
      obtain ⟨found, rfl, hfound⟩ := exists_found_of_joinAll hlength h
      refine charts_of_parts fun i hi => ?_
      have ht := List.getElem?_eq_getElem hi
      have hc := List.getElem?_eq_getElem (Nat.lt_of_lt_of_le hi hlength)
      have hwalk := hfound i _ _ ht hc
      rw [Nat.zero_add] at hwalk
      refine ⟨_, _, ht, hc, charts_walkTerm ?_ hwalk⟩
      intro l m hl
      have hmem : Term.lit l ∈ query.parts := hl ▸ List.getElem_mem hi
      rcases Literal.mem_parts hmem with hargument | hannotation
      · exact harguments l hargument
      · exact hannotations l hannotation

theorem settled_of_walkLiteral {position : List Nat} {query candidate : Literal}
    {pairs : List Binding} (h : walkLiteral s position query candidate = some pairs) :
    ∀ pair ∈ pairs, (pair.value.resolve s).resolve s = pair.value.resolve s := by
  intro pair hpair
  rw [Term.resolve_of_leadsOn ((charts_walkLiteral h).settled pair hpair),
    Term.resolve_of_leadsOn ((charts_walkLiteral h).settled pair hpair)]

/-! ## The result -/

variable {query candidate : Literal} {b : BindingSet}

/-- Bindings lead to the first place of a variable, and to their terms. -/
theorem firstAt_of_structural (h : structural s query candidate = some b) {binding : Binding}
    (hbinding : binding ∈ b.bindings) :
    query.FirstAt binding.name binding.position ∧
      (Term.lit candidate).at? (Term.resolve s) binding.position = some binding.value := by
  obtain ⟨pairs, hwalk, hbind⟩ := pairs_of_structural h
  have hchart := charts_walkLiteral hwalk
  rcases BindingSet.first_of_bindEach hbind hbinding with
    hold | ⟨front, pair, back, rfl, rfl, -, hfront⟩
  · cases hold
  obtain ⟨path, x, hposition, hquery, hname, hcandidate⟩ :=
    hchart.sound pair (List.mem_append_right _ List.mem_cons_self)
  rw [List.nil_append] at hposition
  dsimp only
  rw [hposition]
  refine ⟨⟨⟨x, hquery, hname⟩, ?_⟩, hcandidate⟩
  intro other y hother hsame
  -- a pair with the same name is this one or comes later, and later pairs have later paths
  obtain ⟨pair', hpair', hposition', hname'⟩ := hchart.complete other y hother
  rw [List.nil_append] at hposition'
  rw [← hposition, ← hposition']
  have hsorted := (List.pairwise_append.1 hchart.sorted).2.1
  rcases List.mem_append.1 hpair' with hearlier | hlater
  · exact absurd (hname'.trans hsame) (hfront pair' hearlier)
  · rcases List.mem_cons.1 hlater with rfl | hlater
    · exact le_refl _
    · exact le_of_lt ((List.pairwise_cons.1 hsorted).1 pair' hlater)

/-- An assignment makes the candidate out of the query exactly when it has what is bound. -/
theorem accepts_iff_of_structural (h : structural s query candidate = some b) (σ : Path → Term) :
    query.Accepts s σ candidate ↔
      ∀ binding ∈ b.bindings, (σ binding.name).equal s.heap binding.value = true := by
  obtain ⟨pairs, hwalk, hbind⟩ := pairs_of_structural h
  have hadmits : Admits s σ (walkLiteral s [] query candidate) ↔ query.Accepts s σ candidate :=
    admits_walkLiteral_iff
  rw [← hadmits, hwalk]
  constructor
  · rintro ⟨_, ⟨⟩, hagree⟩ binding hbinding
    rcases BindingSet.origin_of_bindEach hbind hbinding with hold | ⟨pair, hpair, hname, hvalue⟩
    · cases hold
    · rw [hname, hvalue]
      exact hagree pair hpair
  · intro hbound
    refine ⟨pairs, rfl, fun pair hpair => ?_⟩
    obtain ⟨t, ht, -⟩ := BindingSet.agrees_of_bindEach hbind hpair
    obtain ⟨binding, hbinding, hname, rfl⟩ := BindingSet.exists_of_get? ht
    have hsame := BindingSet.agree_of_bindEach (settled_of_walkLiteral hwalk) hbind pair hpair
    have hvalue := hbound binding hbinding
    rw [BindingSet.substitution_of_get? ht] at hsame
    rw [hname] at hvalue
    rw [Term.equal_iff_content] at hsame hvalue ⊢
    exact hvalue.trans hsame

/--
The structural match decides whether the candidate is an instance of the query,
in every store.  Where it is, the bindings have the names of the query's variables
in their order, each with the path to the first place of the variable, which in
the candidate leads to the term that is bound; and they say all that there is to
say of the assignments.  A chain of variables that leads round in a circle has no end
that an assignment could give, and there is no match; the program does not come back
with one either.
-/
theorem structural_isSome_iff (s : Store) (query candidate : Literal) :
    ((structural s query candidate).isSome ↔ ∃ σ, query.Accepts s σ candidate) ∧
      ∀ b, structural s query candidate = some b →
        b.names = query.vars.map Variable.name ∧
          (∀ binding ∈ b.bindings,
            query.FirstAt binding.name binding.position ∧
              (Term.lit candidate).at? (Term.resolve s) binding.position = some binding.value) ∧
          ∀ σ, query.Accepts s σ candidate ↔
            ∀ binding ∈ b.bindings, (σ binding.name).equal s.heap binding.value = true := by
  refine ⟨⟨?_, ?_⟩, fun b hb => ⟨?_, fun binding => firstAt_of_structural hb,
    accepts_iff_of_structural hb⟩⟩
  · intro hsome
    obtain ⟨b, hb⟩ := Option.isSome_iff_exists.1 hsome
    obtain ⟨pairs, hwalk, hbind⟩ := pairs_of_structural hb
    exact ⟨b.substitution, admits_walkLiteral_iff.1
      ⟨pairs, hwalk, BindingSet.agree_of_bindEach (settled_of_walkLiteral hwalk) hbind⟩⟩
  · rintro ⟨σ, haccepts⟩
    obtain ⟨pairs, hwalk, hagree⟩ := admits_walkLiteral_iff.2 haccepts
    rw [structural_eq, hwalk]
    exact BindingSet.isSome_bindEach (settled_of_walkLiteral hwalk) hagree nofun
  · obtain ⟨pairs, hwalk, hbind⟩ := pairs_of_structural hb
    exact BindingSet.names_of_bindEach hbind rfl (names_walkLiteral hwalk)

/--
A variable that comes twice, at two levels, meets a value and a variable that leads
to it, and another variable meets a box that holds itself.  Beside them a slot
leads back to itself.
-/
theorem structural_isSome_through_slots :
    let x (name : String) : Term := .var (.unbound ⟨[name]⟩)
    let f (name : String) (arguments : List Term) (annotations : List Literal) : Literal :=
      ⟨⟨.empty, name⟩, arguments, annotations, false, false⟩
    let inSlot (i : SlotId) : Term := .var ⟨⟨["V"]⟩, .mutex i⟩
    let s : Store :=
      { heap := ⟨#[.box 0]⟩
        slots := #[some (inSlot 1), some (.raw (.int 5)), some (inSlot 2)] }
    let query := f "f" [x "X", .lit (f "g" [x "X", x "Y"] [])] [f "k" [x "Z"] []]
    let candidate := f "f" [inSlot 0, .lit (f "g" [.raw (.int 5), .raw (.box 0)] [])]
      [f "k" [.raw (.int 2)] [], f "more" [inSlot 2] []]
    ∃ b, structural s query candidate = some b ∧
      b.names = [⟨["X"]⟩, ⟨["Y"]⟩, ⟨["Z"]⟩] ∧
      b.bindings.map Binding.position = [[0], [1, 1], [2, 0]] ∧
      query.Accepts s b.substitution candidate ∧
      (∀ binding ∈ b.bindings, query.FirstAt binding.name binding.position) ∧
      ¬∃ σ, query.Accepts s σ (f "f" [inSlot 2, .lit (f "g" [inSlot 2, x "W"] [])]
        [f "k" [.raw (.int 2)] []]) := by
  intro x f inSlot s query candidate
  obtain ⟨-, hresult⟩ := structural_isSome_iff s query candidate
  obtain ⟨b, hb, hnames, hpositions, hvalues⟩ : ∃ b, structural s query candidate = some b ∧
      b.names = [⟨["X"]⟩, ⟨["Y"]⟩, ⟨["Z"]⟩] ∧
      b.bindings.map Binding.position = [[0], [1, 1], [2, 0]] ∧
      ∀ binding ∈ b.bindings,
        (b.substitution binding.name).equal s.heap binding.value = true :=
    ⟨_, rfl, rfl, rfl, by decide⟩
  obtain ⟨-, hfirst, haccepts⟩ := hresult b hb
  refine ⟨b, hb, hnames, hpositions, (haccepts b.substitution).2 hvalues,
    fun binding hbinding => (hfirst binding hbinding).1, ?_⟩
  rw [← (structural_isSome_iff s query _).1]
  decide

end Match

end Deliberation
