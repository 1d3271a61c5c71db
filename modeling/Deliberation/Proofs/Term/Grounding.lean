import Deliberation.Proofs.Matching.Acyclic
import Deliberation.Proofs.Term.Renaming

/-!
# Grounding

Grounding replaces the variables of a literal by their values, and the variables
in these values in turn.  Where no variable leads back to itself, this comes to
an end: either every variable on the way is bound, and the result has no
variables, or the first one that is not is named by the error.  Where the values
have no variables themselves, the four ways to fill in a literal agree with it.
-/

namespace Deliberation

/-! ## Replacing variables where some may fail -/

section Failures

variable {ε : Type} (f : Variable → Except ε Term)

/-- The first failure among the results for a list of variables. -/
def firstFailure : List Variable → Option ε
  | [] => none
  | x :: rest =>
      match f x with
      | .error e => some e
      | .ok _ => firstFailure rest

/-- The term for a variable where there is one. -/
def settled (x : Variable) : Term :=
  match f x with
  | .ok t => t
  | .error _ => .raw .empty

theorem firstFailure_append (first second : List Variable) :
    firstFailure f (first ++ second) = (firstFailure f first).or (firstFailure f second) := by
  induction first with
  | nil => rfl
  | cons x rest ih =>
      rw [List.cons_append, firstFailure, firstFailure]
      cases f x with
      | error e => rfl
      | ok t => exact ih

variable {f} in
theorem firstFailure_eq_none_iff {xs : List Variable} :
    firstFailure f xs = none ↔ ∀ x ∈ xs, ∃ t, f x = .ok t := by
  induction xs with
  | nil => simp [firstFailure]
  | cons x rest ih => cases h : f x <;> simp [firstFailure, h, ih]

mutual

theorem Term.substituteM_eq : ∀ t : Term,
    t.substituteM f = (firstFailure f t.occurrences).elim (.ok (t.substitute (settled f))) .error
  | .raw _ => rfl
  | .var x => by
      rw [Term.substituteM, Term.substitute, Term.occurrences, firstFailure, settled]
      cases f x <;> rfl
  | .lit l => by
      rw [Term.substituteM, Term.substitute, Term.occurrences, Literal.substituteM_eq l]
      cases firstFailure f l.occurrences <;> rfl

/-- Variables are replaced from left to right, and the first failure is the result. -/
theorem Literal.substituteM_eq : ∀ l : Literal,
    l.substituteM f = (firstFailure f l.occurrences).elim (.ok (l.substitute (settled f))) .error
  | ⟨_, arguments, annotations, _, _⟩ => by
      rw [Literal.substituteM, Literal.substitute, Literal.occurrences, firstFailure_append,
        Term.substituteAllM_eq arguments, Literal.substituteAllM_eq annotations]
      cases firstFailure f (Term.occurrencesAll arguments) with
      | some e => rfl
      | none => cases firstFailure f (Literal.occurrencesAll annotations) <;> rfl

theorem Term.substituteAllM_eq : ∀ ts : List Term,
    Term.substituteAllM f ts =
      (firstFailure f (Term.occurrencesAll ts)).elim
        (.ok (Term.substituteAll (settled f) ts)) .error
  | [] => rfl
  | t :: rest => by
      rw [Term.substituteAllM, Term.substituteAll, Term.occurrencesAll, firstFailure_append,
        Term.substituteM_eq t, Term.substituteAllM_eq rest]
      cases firstFailure f t.occurrences with
      | some e => rfl
      | none => cases firstFailure f (Term.occurrencesAll rest) <;> rfl

theorem Literal.substituteAllM_eq : ∀ ls : List Literal,
    Literal.substituteAllM f ls =
      (firstFailure f (Literal.occurrencesAll ls)).elim
        (.ok (Literal.substituteAll (settled f) ls)) .error
  | [] => rfl
  | l :: rest => by
      rw [Literal.substituteAllM, Literal.substituteAll, Literal.occurrencesAll,
        firstFailure_append, Literal.substituteM_eq l, Literal.substituteAllM_eq rest]
      cases firstFailure f l.occurrences with
      | some e => rfl
      | none => cases firstFailure f (Literal.occurrencesAll rest) <;> rfl

end

end Failures

theorem Term.occurrences_substitute (f : Variable → Term) (t : Term) :
    (t.substitute f).occurrences = t.occurrences.flatMap fun x => (f x).occurrences := by
  cases t with
  | raw v => rfl
  | var x => simp [Term.substitute, Term.occurrences]
  | lit l => exact Literal.occurrences_substitute f l

theorem Term.substitute_of_closed (f : Variable → Term) {t : Term} (h : t.occurrences = []) :
    t.substitute f = t := by
  cases t with
  | raw v => rfl
  | var x => cases h
  | lit l =>
      have hclosed : l.occurrences = [] := h
      have hsame : l.substitute f = l.substitute .var := by
        refine Literal.substitute_congr ?_
        rw [hclosed]
        exact fun _ hx => absurd hx List.not_mem_nil
      rw [Term.substitute, hsame, Literal.substitute_var]

/-! ## What grounding meets -/

/-- Every name that a name leads to is bound, the name itself among them. -/
def AllBound (value? : Path → Option Term) (name : Path) : Prop :=
  ∀ other, Relation.ReflTransGen (LeadsTo value?) name other → (value? other).isSome

/--
The first name without a value that is met when the values of variables are
gone through in turn, each before the variables that come after it.
-/
inductive FirstUnbound (value? : Path → Option Term) : List Variable → Path → Prop
  | here {x : Variable} {rest : List Variable} (h : value? x.name = none) :
      FirstUnbound value? (x :: rest) x.name
  | inside {x : Variable} {rest : List Variable} {t : Term} {name : Path}
      (h : value? x.name = some t) (hfirst : FirstUnbound value? t.occurrences name) :
      FirstUnbound value? (x :: rest) name
  | later {x : Variable} {rest : List Variable} {name : Path} (h : AllBound value? x.name)
      (hfirst : FirstUnbound value? rest name) : FirstUnbound value? (x :: rest) name

theorem leadsTo_iff {value? : Path → Option Term} {name other : Path} :
    LeadsTo value? name other ↔
      ∃ t, value? name = some t ∧ ∃ x ∈ t.occurrences, x.name = other := by
  simp [LeadsTo, Term.mentions]

/-- The names that a bound name leads to are itself and those that its value leads to. -/
theorem allBound_iff_of_value? {value? : Path → Option Term} {name : Path} {t : Term}
    (h : value? name = some t) :
    AllBound value? name ↔ ∀ x ∈ t.occurrences, AllBound value? x.name := by
  constructor
  · intro hall x hx other hreaches
    exact hall other (.head (leadsTo_iff.2 ⟨t, h, x, hx, rfl⟩) hreaches)
  · intro hall other hreaches
    rcases Relation.ReflTransGen.cases_head hreaches with rfl | ⟨next, hstep, hrest⟩
    · rw [h]
      rfl
    · obtain ⟨u, hu, x, hx, rfl⟩ := leadsTo_iff.1 hstep
      cases h.symm.trans hu
      exact hall x hx other hrest

/-- Where not all is bound, there is a first name without a value: the first variable that leads
to one is unbound itself, or has one in its value. -/
theorem exists_firstUnbound {value? : Path → Option Term} {xs : List Variable}
    (hinside : ∀ x ∈ xs, ∀ t, value? x.name = some t → ¬AllBound value? x.name →
      ∃ first, FirstUnbound value? t.occurrences first)
    (h : ∃ x ∈ xs, ¬AllBound value? x.name) : ∃ first, FirstUnbound value? xs first := by
  induction xs with
  | nil =>
      obtain ⟨x, hx, -⟩ := h
      cases hx
  | cons x rest ih =>
      rw [List.forall_mem_cons] at hinside
      by_cases hx : AllBound value? x.name
      · obtain ⟨y, hy, hunbound⟩ := h
        have hy : y ∈ rest := by
          rcases List.mem_cons.1 hy with rfl | hy
          · exact absurd hx hunbound
          · exact hy
        obtain ⟨first, hfirst⟩ := ih hinside.2 ⟨y, hy, hunbound⟩
        exact ⟨first, .later hx hfirst⟩
      · cases ht : value? x.name with
        | none => exact ⟨x.name, .here ht⟩
        | some t =>
            obtain ⟨first, hfirst⟩ := hinside.1 t ht hx
            exact ⟨first, .inside ht hfirst⟩

namespace Context

variable {s : Store} {c : Context}

/-! ## Without a cycle -/

/-- A way and what is left of the context bound how far a name can lead. -/
theorem acc_of_way (hacyclic : NoCycle (c.value? s)) {n : Nat} {way : List Path} {name : Path}
    (hway : Way s c way name) (hdepth : c.size < way.length + n) :
    Acc (fun next name => LeadsTo (c.value? s) name next) name := by
  induction n generalizing way name with
  | zero =>
      have hlength := hway.length_le
      omega
  | succ n ih =>
      refine ⟨name, ?_⟩
      rintro next ⟨t, ht, hmentions⟩
      refine ih (hway.next hacyclic ht hmentions) ?_
      rw [List.length_cons]
      omega

/-- Names can be gone through from those that lead nowhere upward. -/
theorem wellFounded_leadsTo (hacyclic : NoCycle (c.value? s)) :
    WellFounded (fun next name => LeadsTo (c.value? s) name next) := by
  refine ⟨fun name => acc_of_way hacyclic (way_nil s c name) (n := c.size + 1) ?_⟩
  rw [List.length_nil]
  omega

theorem groundOr_succ (rest : Variable → Except TermError Term) (n : Nat) (x : Variable) :
    c.groundOr s rest (n + 1) x = c.groundOr s (c.groundOr s rest 1) n x := by
  induction n generalizing x with
  | zero => rfl
  | succ n ih =>
      rw [groundOr, groundOr]
      cases c.value? s x.name with
      | none => rfl
      | some t => exact Term.substituteM_congr fun y _ => ih y

/-- What grounding puts in the place of a variable. -/
abbrev grounded (s : Store) (c : Context) : Variable → Except TermError Term :=
  c.groundVariable s (c.size + 1)

/-- Grounding a variable is grounding its value: the bound on the depth is never met. -/
theorem grounded_eq (hacyclic : NoCycle (c.value? s)) (x : Variable) :
    c.grounded s x =
      match c.value? s x.name with
      | some t => t.substituteM (c.grounded s)
      | none => .error (.unboundVariable x.name.text) := by
  unfold grounded
  rw [groundVariable]
  cases ht : c.value? s x.name with
  | none => rfl
  | some t =>
      refine Term.substituteM_congr fun y hy => ?_
      have hmentions : t.mentions y.name = true := by
        rw [Term.mentions, List.any_eq_true]
        exact ⟨y, hy, decide_eq_true rfl⟩
      rw [groundVariable_eq, groundVariable_eq, groundOr_succ]
      refine groundOr_eq hacyclic _ _ ((way_nil s c x.name).next hacyclic ht hmentions) ?_
      rw [List.length_singleton]
      omega

section Grounded

variable (hacyclic : NoCycle (c.value? s))
include hacyclic

theorem grounded_of_value? {x : Variable} {t : Term} (h : c.value? s x.name = some t) :
    c.grounded s x =
      (firstFailure (c.grounded s) t.occurrences).elim
        (.ok (t.substitute (settled (c.grounded s)))) .error := by
  rw [grounded_eq hacyclic, h]
  exact Term.substituteM_eq _ t

theorem grounded_of_none {x : Variable} (h : c.value? s x.name = none) :
    c.grounded s x = .error (.unboundVariable x.name.text) := by
  rw [grounded_eq hacyclic, h]

/-- A variable can be grounded exactly when all it leads to is bound. -/
theorem grounded_ok_iff (x : Variable) :
    (∃ t, c.grounded s x = .ok t) ↔ AllBound (c.value? s) x.name := by
  obtain ⟨name, cell⟩ := x
  induction name using (wellFounded_leadsTo hacyclic).induction generalizing cell with
  | _ name ih =>
      cases ht : c.value? s name with
      | none =>
          rw [grounded_of_none hacyclic ht]
          constructor
          · rintro ⟨t, ⟨⟩⟩
          · intro hall
            have hbound := hall name .refl
            rw [ht] at hbound
            cases hbound
      | some t =>
          have hparts : firstFailure (c.grounded s) t.occurrences = none ↔
              AllBound (c.value? s) name := by
            rw [firstFailure_eq_none_iff, allBound_iff_of_value? ht]
            exact forall₂_congr fun y hy => ih y.name (leadsTo_iff.2 ⟨t, ht, y, hy, rfl⟩) y.cell
          rw [grounded_of_value? hacyclic ht, ← hparts]
          cases firstFailure (c.grounded s) t.occurrences <;> simp

theorem firstFailure_eq_none_iff_allBound (xs : List Variable) :
    firstFailure (c.grounded s) xs = none ↔ ∀ x ∈ xs, AllBound (c.value? s) x.name := by
  rw [firstFailure_eq_none_iff]
  exact forall₂_congr fun x _ => grounded_ok_iff hacyclic x

/-- A grounded variable has no variables left. -/
theorem occurrences_of_grounded {x : Variable} {t : Term} (h : c.grounded s x = .ok t) :
    t.occurrences = [] := by
  obtain ⟨name, cell⟩ := x
  induction name using (wellFounded_leadsTo hacyclic).induction generalizing cell t with
  | _ name ih =>
      cases hvalue : c.value? s name with
      | none =>
          rw [grounded_of_none hacyclic hvalue] at h
          cases h
      | some u =>
          rw [grounded_of_value? hacyclic hvalue] at h
          cases hfailure : firstFailure (c.grounded s) u.occurrences with
          | some e =>
              rw [hfailure] at h
              cases h
          | none =>
              rw [hfailure] at h
              cases h
              rw [Term.occurrences_substitute, List.flatMap_eq_nil_iff]
              intro y hy
              obtain ⟨v, hv⟩ := firstFailure_eq_none_iff.1 hfailure y hy
              rw [settled, hv]
              exact ih y.name (leadsTo_iff.2 ⟨u, hvalue, y, hy, rfl⟩) y.cell hv

/-- The first failure names the first variable without a value. -/
theorem firstFailure_of_firstUnbound {xs : List Variable} {name : Path}
    (h : FirstUnbound (c.value? s) xs name) :
    firstFailure (c.grounded s) xs = some (.unboundVariable name.text) := by
  induction h with
  | here h => rw [firstFailure, grounded_of_none hacyclic h]
  | inside h _ ih => rw [firstFailure, grounded_of_value? hacyclic h, ih, Option.elim_some]
  | later h _ ih =>
      obtain ⟨t, ht⟩ := (grounded_ok_iff hacyclic _).2 h
      rw [firstFailure, ht]
      exact ih

/-- A name that leads to an unbound one has a first such name in its value. -/
theorem exists_firstUnbound_of_value? {name : Path} {t : Term} (h : c.value? s name = some t)
    (hunbound : ¬AllBound (c.value? s) name) :
    ∃ first, FirstUnbound (c.value? s) t.occurrences first := by
  induction name using (wellFounded_leadsTo hacyclic).induction generalizing t with
  | _ name ih =>
      rw [allBound_iff_of_value? h] at hunbound
      refine exists_firstUnbound ?_ (by simpa using hunbound)
      intro x hx u hu hother
      exact ih x.name (leadsTo_iff.2 ⟨t, h, x, hx, rfl⟩) hu hother

theorem firstFailure_eq_some_iff {xs : List Variable} {e : TermError} :
    firstFailure (c.grounded s) xs = some e ↔
      ∃ name, FirstUnbound (c.value? s) xs name ∧ e = .unboundVariable name.text := by
  constructor
  · intro h
    have hunbound : ∃ x ∈ xs, ¬AllBound (c.value? s) x.name := by
      by_contra hall
      rw [(firstFailure_eq_none_iff_allBound hacyclic xs).2 (by simpa using hall)] at h
      cases h
    obtain ⟨name, hfirst⟩ := exists_firstUnbound
      (fun x _ t ht => exists_firstUnbound_of_value? hacyclic ht) hunbound
    rw [firstFailure_of_firstUnbound hacyclic hfirst] at h
    exact ⟨name, hfirst, (Option.some.inj h).symm⟩
  · rintro ⟨name, hfirst, rfl⟩
    exact firstFailure_of_firstUnbound hacyclic hfirst

end Grounded

/-! ## Literals -/

theorem ground_eq_elim (l : Literal) :
    c.ground s l =
      (firstFailure (c.grounded s) l.occurrences).elim
        (.ok (l.substitute (settled (c.grounded s)))) .error :=
  Literal.substituteM_eq _ l

theorem ground_ok_iff {l g : Literal} :
    c.ground s l = .ok g ↔
      firstFailure (c.grounded s) l.occurrences = none ∧
        l.substitute (settled (c.grounded s)) = g := by
  rw [ground_eq_elim]
  cases firstFailure (c.grounded s) l.occurrences <;> simp

theorem ground_error_iff {l : Literal} {e : TermError} :
    c.ground s l = .error e ↔ firstFailure (c.grounded s) l.occurrences = some e := by
  rw [ground_eq_elim]
  cases firstFailure (c.grounded s) l.occurrences <;> simp

/-- A value without variables is what grounding puts in the place of its variable. -/
theorem settled_grounded_of_closed (hacyclic : NoCycle (c.value? s)) {x : Variable} {t : Term}
    (h : c.value? s x.name = some t) (hclosed : t.occurrences = []) :
    settled (c.grounded s) x = t := by
  have hgrounded : c.grounded s x = .ok t := by
    rw [grounded_of_value? hacyclic h, hclosed, Term.substitute_of_closed _ hclosed]
    rfl
  rw [settled, hgrounded]

/--
Where no variable leads back to itself, grounding ends, and the depth that it is
given is enough.  It succeeds exactly when all variables that the literal leads
to are bound, with a literal that has no variables; otherwise its error names
the first variable without a value.  Where moreover the bound values have no
variables, the other ways to fill in the literal give the same.
-/
theorem ground_of_noCycle (hacyclic : NoCycle (c.value? s)) (l : Literal) :
    c.GroundingEnds s l ∧
    (∀ rest, l.substituteM (c.groundOr s rest (c.size + 1)) = c.ground s l) ∧
    ((∃ g, c.ground s l = .ok g) ↔ ∀ x ∈ l.occurrences, AllBound (c.value? s) x.name) ∧
    (∀ g, c.ground s l = .ok g → g.occurrences = []) ∧
    (∀ e, c.ground s l = .error e ↔
      ∃ name, FirstUnbound (c.value? s) l.occurrences name ∧ e = .unboundVariable name.text) ∧
    ((∀ name t, c.value? s name = some t → t.occurrences = []) → ∀ g, c.ground s l = .ok g →
      c.instantiate s l = g ∧ c.fill s l = g ∧ c.complete s l = g) := by
  refine ⟨groundingEnds_of_noCycle hacyclic l, fun rest => ground_eq hacyclic rest l, ?_, ?_, ?_,
    ?_⟩
  · rw [← firstFailure_eq_none_iff_allBound hacyclic]
    simp [ground_ok_iff]
  · intro g hg
    obtain ⟨hfailure, rfl⟩ := ground_ok_iff.1 hg
    rw [Literal.occurrences_substitute, List.flatMap_eq_nil_iff]
    intro x hx
    obtain ⟨t, ht⟩ := firstFailure_eq_none_iff.1 hfailure x hx
    rw [settled, ht]
    exact occurrences_of_grounded hacyclic ht
  · intro e
    rw [ground_error_iff]
    exact firstFailure_eq_some_iff hacyclic
  · intro hclosed g hg
    obtain ⟨hfailure, rfl⟩ := ground_ok_iff.1 hg
    have hbound : ∀ x ∈ l.occurrences, c.value? s x.name = some (settled (c.grounded s) x) := by
      intro x hx
      have hall := (firstFailure_eq_none_iff_allBound hacyclic _).1 hfailure x hx
      obtain ⟨t, ht⟩ := Option.isSome_iff_exists.1 (hall x.name .refl)
      rw [settled_grounded_of_closed hacyclic ht (hclosed x.name t ht), ht]
    refine ⟨Literal.substitute_congr ?_, Literal.substitute_congr ?_, Literal.substitute_congr ?_⟩
    · intro x hx
      obtain ⟨known, hknown, hvalue⟩ := Option.bind_eq_some_iff.1 (hbound x hx)
      rw [hknown]
      dsimp only
      rw [hvalue, Option.getD_some]
    · intro x hx
      rw [hbound x hx, Option.getD_some]
    · intro x hx
      rw [hbound x hx, Option.getD_some]

/-- A value with a variable that the literal has too, and a literal with an unbound variable behind
one that leads to others. -/
theorem ground_of_noCycle_shared :
    let f (name : String) (arguments : List Term) (annotations : List Literal) : Literal :=
      ⟨⟨.empty, name⟩, arguments, annotations, false, false⟩
    let x (name : String) : Term := .var (.unbound ⟨[name]⟩)
    let c : Context :=
      ⟨[⟨⟨["X"]⟩, .free (some (.lit (f "g" [x "Y"] [])))⟩, ⟨⟨["Y"]⟩, .free (some (.raw (.int 2)))⟩]⟩
    let l := f "f" [x "X"] [f "source" [x "Y"] []]
    let m := f "f" [x "X"] [f "source" [x "Z"] []]
    NoCycle (c.value? .empty) ∧ c.GroundingEnds .empty l ∧
      (∃ g, c.ground .empty l = .ok g ∧ g.occurrences = []) ∧
      ∃ name, FirstUnbound (c.value? .empty) m.occurrences name ∧
        c.ground .empty m = .error (.unboundVariable name.text) := by
  intro f x c l m
  have hleads : ∀ name other, LeadsTo (c.value? .empty) name other →
      name = ⟨["X"]⟩ ∧ other = ⟨["Y"]⟩ := by
    rintro name other ⟨t, ht, hmentions⟩
    by_cases hx : name = ⟨["X"]⟩
    · subst hx
      cases ht
      exact ⟨rfl, (by simpa [f, x, Term.mentions, Term.occurrences, Literal.occurrences,
        Term.occurrencesAll, Literal.occurrencesAll, Variable.unbound, eq_comm] using hmentions)⟩
    · by_cases hy : name = ⟨["Y"]⟩
      · subst hy
        cases ht
        cases hmentions
      · simp [c, value?, get?, eq_comm, hx, hy] at ht
  have hacyclic : NoCycle (c.value? .empty) := by
    intro name hcycle
    obtain ⟨_, hfirst, -⟩ := Relation.TransGen.head'_iff.1 hcycle
    obtain ⟨_, -, hlast⟩ := Relation.TransGen.tail'_iff.1 hcycle
    exact absurd ((hleads _ _ hfirst).1.symm.trans (hleads _ _ hlast).2) (by decide)
  obtain ⟨hends, -, -, hground, -, -⟩ := ground_of_noCycle hacyclic l
  obtain ⟨-, -, -, -, herror, -⟩ := ground_of_noCycle hacyclic m
  obtain ⟨name, hfirst, hname⟩ := (herror _).1 rfl
  exact ⟨hacyclic, hends, ⟨_, rfl, hground _ rfl⟩, name, hfirst, hname ▸ rfl⟩

end Context

end Deliberation
