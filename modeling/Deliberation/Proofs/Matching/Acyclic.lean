import Deliberation.Proofs.Matching.Binding
import Mathlib.Data.List.Perm.Subperm
import Mathlib.Logic.Relation

/-!
# Bindings that lead to themselves

A variable leads to the variables in the term that it is bound to.  Where none
leads back to itself, replacing variables by their terms comes to an end after
as many steps as there are variables.  A match of literals whose variables are
apart leaves such bindings; a match of literals with a common variable may bind
it to itself.
-/

namespace Deliberation

/-! ## Replacing variables with effects -/

section Effects

variable {m : Type → Type} [Monad m] {f g : Variable → m Term}

mutual

theorem Term.substituteM_congr : ∀ {t : Term}, (∀ x ∈ t.occurrences, f x = g x) →
    t.substituteM f = t.substituteM g
  | .raw _, _ => rfl
  | .var x, h => h x List.mem_cons_self
  | .lit l, h => by
      rw [Term.substituteM, Term.substituteM, Literal.substituteM_congr h]

theorem Literal.substituteM_congr : ∀ {l : Literal}, (∀ x ∈ l.occurrences, f x = g x) →
    l.substituteM f = l.substituteM g
  | ⟨_, arguments, annotations, _, _⟩, h => by
      rw [Literal.substituteM, Literal.substituteM,
        Term.substituteAllM_congr fun x hx => h x (List.mem_append_left _ hx),
        Literal.substituteAllM_congr fun x hx => h x (List.mem_append_right _ hx)]

theorem Term.substituteAllM_congr : ∀ {ts : List Term},
    (∀ x ∈ Term.occurrencesAll ts, f x = g x) →
      Term.substituteAllM f ts = Term.substituteAllM g ts
  | [], _ => rfl
  | t :: rest, h => by
      rw [Term.substituteAllM, Term.substituteAllM,
        Term.substituteM_congr fun x hx => h x (List.mem_append_left _ hx),
        Term.substituteAllM_congr fun x hx => h x (List.mem_append_right _ hx)]

theorem Literal.substituteAllM_congr : ∀ {ls : List Literal},
    (∀ x ∈ Literal.occurrencesAll ls, f x = g x) →
      Literal.substituteAllM f ls = Literal.substituteAllM g ls
  | [], _ => rfl
  | l :: rest, h => by
      rw [Literal.substituteAllM, Literal.substituteAllM,
        Literal.substituteM_congr fun x hx => h x (List.mem_append_left _ hx),
        Literal.substituteAllM_congr fun x hx => h x (List.mem_append_right _ hx)]

end

end Effects

/-! ## Grounding -/

/-- A name leads to the names of the variables in the term that is bound to it. -/
def LeadsTo (value? : Path → Option Term) (x y : Path) : Prop :=
  ∃ t, value? x = some t ∧ t.mentions y = true

/-- No name leads back to itself. -/
def NoCycle (value? : Path → Option Term) : Prop :=
  ∀ x, ¬Relation.TransGen (LeadsTo value?) x x

namespace Context

/-- The value of a variable with all variables in it replaced in turn through `n` bound variables;
what lies deeper is left to `rest`. -/
def groundOr (s : Store) (c : Context) (rest : Variable → Except TermError Term) :
    Nat → Variable → Except TermError Term
  | 0, x => rest x
  | n + 1, x =>
      match c.value? s x.name with
      | some t => t.substituteM (groundOr s c rest n)
      | none => .error (.unboundVariable x.name.text)

/-- Replacing the variables of a literal in turn comes to an end: beyond some depth there is
nothing left to be asked. -/
def GroundingEnds (s : Store) (c : Context) (l : Literal) : Prop :=
  ∃ depth, ∀ rest other : Variable → Except TermError Term,
    l.substituteM (c.groundOr s rest depth) = l.substituteM (c.groundOr s other depth)

variable {s : Store} {c : Context}

theorem groundVariable_eq (s : Store) (c : Context) (n : Nat) :
    c.groundVariable s n =
      c.groundOr s (fun x => .error (.unboundVariable x.name.text)) n := by
  induction n with
  | zero => rfl
  | succ n ih =>
      funext x
      cases hvalue : c.value? s x.name <;> simp only [groundVariable, groundOr, hvalue, ih]

theorem mem_names_of_value? {name : Path} {t : Term} (h : c.value? s name = some t) :
    name ∈ c.vars.map Variable.name := by
  obtain ⟨x, hx, -⟩ := Option.bind_eq_some_iff.1 h
  rw [← name_of_get? hx]
  exact List.mem_map_of_mem (List.mem_of_find?_eq_some hx)

/-- A way through the bound variables, last one first, all of which lead to a name. -/
structure Way (s : Store) (c : Context) (way : List Path) (name : Path) : Prop where
  nodup : way.Nodup
  bound : ∀ visited ∈ way, visited ∈ c.vars.map Variable.name
  leads : ∀ visited ∈ way, Relation.TransGen (LeadsTo (c.value? s)) visited name

theorem way_nil (s : Store) (c : Context) (name : Path) : Way s c [] name :=
  ⟨List.nodup_nil, fun _ h => absurd h List.not_mem_nil, fun _ h => absurd h List.not_mem_nil⟩

/-- No way is longer than the context. -/
theorem Way.length_le {way : List Path} {name : Path} (h : Way s c way name) :
    way.length ≤ c.size := by
  have hlength := (h.nodup.subperm h.bound).length_le
  rwa [List.length_map] at hlength

/-- Going on to a variable in the term of the last one makes the way longer. -/
theorem Way.next (hacyclic : NoCycle (c.value? s)) {way : List Path} {x y : Path}
    (h : Way s c way x) {t : Term} (ht : c.value? s x = some t) (hy : t.mentions y = true) :
    Way s c (x :: way) y := by
  have hstep : LeadsTo (c.value? s) x y := ⟨t, ht, hy⟩
  refine ⟨List.nodup_cons.2 ⟨?_, h.nodup⟩, ?_, ?_⟩
  · intro hx
    exact hacyclic x (h.leads x hx)
  · intro visited hvisited
    rcases List.mem_cons.1 hvisited with rfl | hvisited
    · exact mem_names_of_value? ht
    · exact h.bound visited hvisited
  · intro visited hvisited
    rcases List.mem_cons.1 hvisited with rfl | hvisited
    · exact .single hstep
    · exact .tail (h.leads visited hvisited) hstep

/-- A way and the depth that is left cover the context, so what lies deeper is never asked. -/
theorem groundOr_eq (hacyclic : NoCycle (c.value? s))
    (rest other : Variable → Except TermError Term) {n : Nat} {way : List Path} {x : Variable}
    (hway : Way s c way x.name) (hdepth : c.size < way.length + n) :
    c.groundOr s rest n x = c.groundOr s other n x := by
  induction n generalizing way x with
  | zero =>
      have hlength := hway.length_le
      omega
  | succ n ih =>
      rw [groundOr, groundOr]
      cases ht : c.value? s x.name with
      | none => rfl
      | some t =>
          refine Term.substituteM_congr ?_
          intro y hy
          have hmentions : t.mentions y.name = true := by
            rw [Term.mentions, List.any_eq_true]
            exact ⟨y, hy, decide_eq_true rfl⟩
          refine ih (hway.next hacyclic ht hmentions) ?_
          rw [List.length_cons]
          omega

/-- Without a cycle one step more than there are variables is enough for grounding. -/
theorem ground_eq (hacyclic : NoCycle (c.value? s)) (rest : Variable → Except TermError Term)
    (l : Literal) :
    l.substituteM (c.groundOr s rest (c.size + 1)) = c.ground s l := by
  rw [ground, groundVariable_eq]
  refine Literal.substituteM_congr ?_
  intro x _
  refine groundOr_eq hacyclic _ _ (way_nil s c x.name) ?_
  rw [List.length_nil]
  omega

/-- A variable that is bound to itself is followed however deep one goes. -/
theorem groundOr_of_self {name : Path} {y : Variable}
    (hvalue : c.value? s name = some (.var y)) (hy : y.name = name)
    (result : Except TermError Term) (n : Nat) {x : Variable} (hx : x.name = name) :
    c.groundOr s (fun _ => result) n x = result := by
  induction n generalizing x with
  | zero => rfl
  | succ n ih =>
      rw [groundOr, hx, hvalue]
      exact ih hy

theorem groundingEnds_of_noCycle (hacyclic : NoCycle (c.value? s)) (l : Literal) :
    c.GroundingEnds s l := by
  refine ⟨c.size + 1, ?_⟩
  intro rest other
  rw [ground_eq hacyclic rest, ground_eq hacyclic other]

end Context

/-! ## Matches -/

namespace Match

variable {s : Store} {query candidate : Literal} {b : BindingSet}

/-- Terms without variables of the query lead to no name that is bound. -/
theorem Drawn.noCycle (h : Drawn s query candidate b)
    (hapart : ∀ t, candidate.Shows s t → ∀ x ∈ query.occurrences, t.mentions x.name = false) :
    NoCycle b.get? := by
  intro name hcycle
  obtain ⟨_, ⟨t, ht, -⟩, -⟩ := Relation.TransGen.head'_iff.1 hcycle
  obtain ⟨_, -, ⟨u, hu, hmentions⟩⟩ := Relation.TransGen.tail'_iff.1 hcycle
  obtain ⟨x, hx, rfl⟩ := h.named ht
  rw [hapart u (h.shown hu) x hx] at hmentions
  cases hmentions

theorem Drawn.written (h : Drawn s query candidate b) :
    ∃ after, b.apply ⟨s, .empty⟩ = (.ok (), after) ∧
      after.context.value? after.store = b.get? := by
  have howns := Context.owns_empty s
  obtain ⟨after, happly⟩ := BindingSet.exists_apply_of_unbound howns h.nodup fun _ _ => rfl
  have hwritten := BindingSet.written_of_apply howns h.nodup happly
  refine ⟨after, happly, ?_⟩
  funext name
  rw [hwritten.value]
  exact Option.or_none

/--
Bindings of a query to terms in which none of its variables occurs have no
cycle.  Written to an empty context they allow the query to be grounded in
finitely many steps, and grounding it takes no more than it is given.
-/
theorem bind_noCycle_of_apart
    (hapart : ∀ t, candidate.Shows s t → ∀ x ∈ query.occurrences, t.mentions x.name = false)
    (h : bind s query candidate = some b) :
    NoCycle b.get? ∧
    ∃ after, b.apply ⟨s, .empty⟩ = (.ok (), after) ∧
      after.context.GroundingEnds after.store query ∧
      ∀ rest, query.substituteM
          (after.context.groundOr after.store rest (after.context.size + 1)) =
        after.context.ground after.store query := by
  have hdrawn := drawn_of_bind h
  have hacyclic := hdrawn.noCycle hapart
  obtain ⟨after, happly, hvalue⟩ := hdrawn.written
  rw [← hvalue] at hacyclic
  refine ⟨hvalue ▸ hacyclic, after, happly, Context.groundingEnds_of_noCycle hacyclic query, ?_⟩
  intro rest
  exact Context.ground_eq hacyclic rest query

/-- Two variables of the query that stand for terms with one variable of the candidate. -/
theorem bind_noCycle_of_apart_nested :
    let f (name : String) (arguments : List Term) : Literal :=
      ⟨⟨.empty, name⟩, arguments, [], false, false⟩
    let x (name : String) : Term := .var (.unbound ⟨[name]⟩)
    let query := f "f" [x "X", .lit (f "g" [x "Y"])]
    let candidate := f "f" [.lit (f "h" [x "Z"]), .lit (f "g" [x "Z"])]
    ∃ b, bind .empty query candidate = some b ∧ NoCycle b.get? ∧
      ∃ after, b.apply ⟨.empty, .empty⟩ = (.ok (), after) ∧
        after.context.GroundingEnds after.store query := by
  intro f x query candidate
  have hapart : ∀ t, candidate.Shows .empty t →
      ∀ y ∈ query.occurrences, t.mentions y.name = false := by
    intro t ht y hy
    have hunbound : ∀ z ∈ candidate.occurrences, z.isBound .empty = false := by decide
    have hnames : ∀ z ∈ candidate.occurrences, ∀ y ∈ query.occurrences, z.name ≠ y.name := by decide
    refine Bool.eq_false_iff.2 fun hmentions => ?_
    obtain ⟨z, hz, hname⟩ := List.any_eq_true.1 hmentions
    exact hnames z (ht.subset hunbound hz) y hy (of_decide_eq_true hname)
  obtain ⟨b, hb⟩ : ∃ b, bind .empty query candidate = some b := ⟨_, rfl⟩
  obtain ⟨hcycle, after, happly, hends, -⟩ := bind_noCycle_of_apart hapart hb
  exact ⟨b, hb, hcycle, after, happly, hends⟩

/--
A variable that is an argument of both literals is bound to itself, and
replacing it by its value never ends.
-/
theorem bind_common_variable_cycle :
    let name : Path := ⟨["X"]⟩
    let l : Literal := ⟨⟨.empty, "f"⟩, [.var (.unbound name)], [], false, false⟩
    ∃ b, bind .empty l l = some b ∧ Relation.TransGen (LeadsTo b.get?) name name ∧
      ∃ after, b.apply ⟨.empty, .empty⟩ = (.ok (), after) ∧
        ¬after.context.GroundingEnds after.store l := by
  intro name l
  let c : Context := ⟨[⟨name, .free (some (.var (.unbound name)))⟩]⟩
  refine ⟨_, rfl, .single ⟨_, rfl, by decide⟩, ⟨.empty, c⟩, rfl, ?_⟩
  rintro ⟨depth, hends⟩
  -- Whatever is left for the end of the way comes out, so two such answers differ.
  have hanswer : ∀ result : Except TermError Term,
      l.substituteM (c.groundOr .empty (fun _ => result) depth) =
        l.substituteM fun _ => result := by
    intro result
    refine Literal.substituteM_congr ?_
    intro x hx
    have hvalue : c.value? .empty name = some (.var (.unbound name)) := rfl
    refine Context.groundOr_of_self hvalue rfl result depth ?_
    rw [List.mem_singleton.1 hx]
    rfl
  have hsame := hends (fun _ => .ok (.raw .empty)) fun _ => .ok (.raw (.bool true))
  rw [hanswer, hanswer] at hsame
  cases hsame

end Match

end Deliberation
