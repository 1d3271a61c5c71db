import Deliberation.Agent.Config

/-!
# Collected truth values

A conjunction or a disjunction of fuzzy truth values is itself judged by the
strategy that judged the values.  The smallest confidence of accepted values is
still accepted, and so is the largest one as soon as some value is; with a
threshold between zero and one the judgment of the whole is therefore the one
that the judgments of the parts give.  The lazy collectors look at the values up
to the first one that decides and agree with the others.
-/

namespace Deliberation

/-! ## The order of confidences -/

/-- Only the zeros share a rank. -/
theorem Binary64.eq_of_rank_eq {x y : Binary64} (h : x.rank = y.rank) (hy : 0 < y.rank) :
    x = y := by
  have hbits : ∀ z : Binary64, 0 < z.rank → z.rank = z.bits.toNat := by
    intro z hz
    unfold rank isNegative magnitude signWeight at *
    split at hz <;> simp_all <;> omega
  have hx := hbits x (h ▸ hy)
  rw [h, hbits y hy] at hx
  cases x
  cases y
  congr
  exact UInt64.toNat_inj.1 (Int.ofNat.inj hx).symm

namespace Confidence

theorem isNaN_degree (c : Confidence) : c.degree.isNaN = false := by
  have h := c.bounded
  simp only [Binary64.le, Bool.and_eq_true, Bool.not_eq_true'] at h
  exact h.1.1.2

theorem rank_degree_le (c : Confidence) : c.degree.rank ≤ full.degree.rank := by
  have h := c.bounded
  simp only [Binary64.le, Bool.and_eq_true, decide_eq_true_eq] at h
  exact h.2.2

theorem min_eq (c d : Confidence) :
    c.min d = if c.degree.rank < d.degree.rank then c else d := by
  simp [min, Binary64.lt, isNaN_degree]

theorem max_eq (c d : Confidence) :
    c.max d = if d.degree.rank < c.degree.rank then c else d := by
  simp [max, Binary64.lt, isNaN_degree]

theorem min_assoc (c d e : Confidence) : (c.min d).min e = c.min (d.min e) := by
  simp only [min_eq]
  grind

@[simp] theorem full_min (c : Confidence) : full.min c = c := by
  rw [min_eq, if_neg (Int.not_lt.2 c.rank_degree_le)]

@[simp] theorem min_full (c : Confidence) : c.min full = c := by
  rw [min_eq]
  split
  · rfl
  · next hlt =>
      have hrank : full.degree.rank = c.degree.rank :=
        Int.le_antisymm (Int.not_lt.1 hlt) c.rank_degree_le
      have hdegree : full.degree = c.degree :=
        (Binary64.eq_of_rank_eq hrank.symm (by decide)).symm
      cases c
      cases hdegree
      rfl

/-- The smaller of two confidences reaches a threshold when both do. -/
theorem le_degree_min (least : Binary64) (c d : Confidence) :
    least.le (c.min d).degree = (least.le c.degree && least.le d.degree) := by
  rw [min_eq]
  simp only [Binary64.le, isNaN_degree]
  grind

/-- The larger of two confidences reaches a threshold when one of them does. -/
theorem le_degree_max (least : Binary64) (c d : Confidence) :
    least.le (c.max d).degree = (least.le c.degree || least.le d.degree) := by
  rw [max_eq]
  simp only [Binary64.le, isNaN_degree]
  grind

end Confidence

/-! ## Judgments -/

namespace Strategy

/-- A strategy whose threshold, if it has one, lies between zero and one. -/
def Bounded : Strategy → Prop
  | crisp => True
  | threshold least => (Binary64.zero.le least && least.le Binary64.one) = true

/-- Whether a confidence is enough for a value that is true. -/
def grants : Strategy → Confidence → Bool
  | crisp, _ => true
  | threshold least, c => least.le c.degree

variable {strategy : Strategy}

theorem accepts_eq (strategy : Strategy) (x : Fuzzy Bool) :
    strategy.accepts x = (x.value && strategy.grants x.confidence) := by
  cases strategy <;> simp [accepts, grants]

theorem grants_of_accepts {x : Fuzzy Bool} (h : strategy.accepts x = true) :
    strategy.grants x.confidence = true := by
  rw [accepts_eq, Bool.and_eq_true] at h
  exact h.2

theorem grants_min (strategy : Strategy) (c d : Confidence) :
    strategy.grants (c.min d) = (strategy.grants c && strategy.grants d) := by
  cases strategy with
  | crisp => rfl
  | threshold least => exact Confidence.le_degree_min least c d

theorem grants_max (strategy : Strategy) (c d : Confidence) :
    strategy.grants (c.max d) = (strategy.grants c || strategy.grants d) := by
  cases strategy with
  | crisp => rfl
  | threshold least => exact Confidence.le_degree_max least c d

theorem Bounded.grants_full (h : strategy.Bounded) : strategy.grants .full = true := by
  cases strategy with
  | crisp => rfl
  | threshold least =>
      rw [Bounded, Bool.and_eq_true] at h
      exact h.2

/-- The smallest of several confidences is enough when each of them is. -/
theorem grants_foldl_min (strategy : Strategy) (least : Confidence) (values : List (Fuzzy Bool)) :
    strategy.grants (values.foldl (fun least x => least.min x.confidence) least) =
      (strategy.grants least && values.all (fun x => strategy.grants x.confidence)) := by
  induction values generalizing least with
  | nil => simp
  | cons x rest ih => rw [List.foldl_cons, ih, grants_min, List.all_cons, Bool.and_assoc]

/-- The largest of several confidences is enough when one of them is. -/
theorem grants_foldl_max (strategy : Strategy) (most : Confidence) (values : List (Fuzzy Bool)) :
    strategy.grants (values.foldl (fun most x => most.max x.confidence) most) =
      (strategy.grants most || values.any (fun x => strategy.grants x.confidence)) := by
  induction values generalizing most with
  | nil => simp
  | cons x rest ih => rw [List.foldl_cons, ih, grants_max, List.any_cons, Bool.or_assoc]

/-- A fuzzy truth value whose payload is a verdict, and that is judged to be this verdict. -/
structure Judges (strategy : Strategy) (x : Fuzzy Bool) (verdict : Bool) : Prop where
  payload : x.value = verdict
  judged : strategy.accepts x = verdict

/-- A value is judged by its payload when a true one comes with enough confidence. -/
theorem judges_of_grants {x : Fuzzy Bool}
    (h : x.value = true → strategy.grants x.confidence = true) :
    strategy.Judges x x.value where
  payload := rfl
  judged := by
    rw [accepts_eq]
    cases hvalue : x.value with
    | false => rfl
    | true => rw [h hvalue]; rfl

theorem judges_of_false {x : Fuzzy Bool} (h : x.value = false) : strategy.Judges x false where
  payload := h
  judged := by rw [accepts_eq, h]; rfl

end Strategy

theorem Config.bounded_of_validate {config : Config} (h : config.validate = .ok ()) :
    config.strategy.Bounded := by
  unfold Config.validate at h
  split at h
  · cases h
  · split at h
    · cases h
    · cases hstrategy : config.strategy with
      | crisp => trivial
      | threshold least =>
          rw [hstrategy] at h
          dsimp only at h
          split at h
          · assumption
          · cases h

/-! ## The values that are looked at -/

/-- The values up to the first one that decides, that one included. -/
def throughFirst {α : Type} (decides : α → Bool) (values : List α) : List α :=
  values.takeWhile (fun x => !decides x) ++ (values.find? decides).toList

@[simp] theorem throughFirst_nil {α : Type} (decides : α → Bool) :
    throughFirst decides [] = [] := rfl

theorem throughFirst_cons {α : Type} (decides : α → Bool) (x : α) (rest : List α) :
    throughFirst decides (x :: rest) =
      if decides x then [x] else x :: throughFirst decides rest := by
  cases h : decides x <;> simp [throughFirst, h]

/-- A value that is noticed when it is looked at. -/
def noticed {m : Type → Type} [Monad m] (notice : Fuzzy Bool → m Unit) (x : Fuzzy Bool) :
    m (Fuzzy Bool) := do
  notice x
  pure x

/-! ## Conjunction -/

namespace Conjunction

variable {strategy : Strategy}

/-- The values that a lazy conjunction looks at. -/
def lookedAt (strategy : Strategy) (values : List (Fuzzy Bool)) : List (Fuzzy Bool) :=
  throughFirst (fun x => !strategy.accepts x) values

/-- What values come to that follow accepted ones with confidence `least`. -/
def outcome (strategy : Strategy) (least : Confidence) (values : List (Fuzzy Bool)) : Fuzzy Bool :=
  match values.find? (fun x => !strategy.accepts x) with
  | some x => ⟨false, x.confidence⟩
  | none => ⟨true, values.foldl (fun least x => least.min x.confidence) least⟩

theorem outcome_cons (strategy : Strategy) (least : Confidence) (x : Fuzzy Bool)
    (rest : List (Fuzzy Bool)) :
    outcome strategy least (x :: rest) =
      if strategy.accepts x then outcome strategy (least.min x.confidence) rest
      else ⟨false, x.confidence⟩ := by
  cases h : strategy.accepts x <;> simp [outcome, h]

theorem inTurnFrom_noticed {m : Type → Type} [Monad m] [LawfulMonad m] (strategy : Strategy)
    (notice : Fuzzy Bool → m Unit) (least : Confidence) (count : Nat)
    (values : List (Fuzzy Bool)) :
    inTurnFrom strategy least count (values.map (noticed notice)) = (do
      (lookedAt strategy values).forM notice
      pure (outcome strategy least values, count + (lookedAt strategy values).length)) := by
  induction values generalizing least count with
  | nil => simp [inTurnFrom, outcome, lookedAt]
  | cons x rest ih =>
      rw [List.map_cons, inTurnFrom, noticed, bind_assoc, outcome_cons, lookedAt, throughFirst_cons]
      cases hx : strategy.accepts x with
      | true => simp [hx, ih, lookedAt, Nat.add_assoc, Nat.add_comm 1]
      | false => simp [hx]

theorem sequential_eq (strategy : Strategy) (values : List (Fuzzy Bool)) :
    sequential strategy values =
      (outcome strategy .full values, (lookedAt strategy values).length) := by
  have h := inTurnFrom_noticed (m := Id) strategy (fun _ => pure ()) .full 0 values
  rw [Nat.zero_add] at h
  exact h

/-- Exactly the values up to the first one that is not accepted are looked at. -/
theorem inTurn_noticed {m : Type → Type} [Monad m] [LawfulMonad m] (strategy : Strategy)
    (notice : Fuzzy Bool → m Unit) (values : List (Fuzzy Bool)) :
    inTurn strategy (values.map (noticed notice)) = (do
      (lookedAt strategy values).forM notice
      pure (sequential strategy values)) := by
  rw [inTurn, inTurnFrom_noticed, sequential_eq, Nat.zero_add]

theorem outcome_value (strategy : Strategy) (least : Confidence) (values : List (Fuzzy Bool)) :
    (outcome strategy least values).value = values.all strategy.accepts := by
  induction values generalizing least with
  | nil => rfl
  | cons x rest ih =>
      rw [outcome_cons, List.all_cons]
      cases strategy.accepts x with
      | true => exact ih _
      | false => rfl

/-- With every value accepted the lazy conjunction is the conjunction of all. -/
theorem sequential_of_all {values : List (Fuzzy Bool)} (h : values.all strategy.accepts = true) :
    (sequential strategy values).1 = combine strategy values := by
  have hnone : values.find? (fun x => !strategy.accepts x) = none :=
    List.find?_eq_none.2 fun x hx => by simp [List.all_eq_true.1 h x hx]
  rw [sequential_eq, outcome, hnone, combine, h]

/-- The smallest confidence of accepted values is enough, full confidence for none included. -/
theorem combine_judges (hbounded : strategy.Bounded) (values : List (Fuzzy Bool)) :
    strategy.Judges (combine strategy values) (values.all strategy.accepts) := by
  refine Strategy.judges_of_grants fun hall => ?_
  rw [combine, Strategy.grants_foldl_min, hbounded.grants_full, Bool.true_and]
  exact List.all_eq_true.2 fun x hx => Strategy.grants_of_accepts (List.all_eq_true.1 hall x hx)

theorem sequential_judges (hbounded : strategy.Bounded) (values : List (Fuzzy Bool)) :
    strategy.Judges (sequential strategy values).1 (values.all strategy.accepts) := by
  cases hall : values.all strategy.accepts with
  | true =>
      have h := combine_judges hbounded values
      rw [sequential_of_all hall]
      rwa [hall] at h
  | false =>
      refine Strategy.judges_of_false ?_
      rw [sequential_eq, outcome_value, hall]

end Conjunction

/-! ## Disjunction -/

namespace Disjunction

variable {strategy : Strategy}

/-- The values that a lazy disjunction looks at. -/
def lookedAt (strategy : Strategy) (values : List (Fuzzy Bool)) : List (Fuzzy Bool) :=
  throughFirst strategy.accepts values

/-- What values come to that follow `count` rejected ones with confidence `most`. -/
def outcome (strategy : Strategy) (most : Confidence) (count : Nat)
    (values : List (Fuzzy Bool)) : Fuzzy Bool :=
  match values.find? strategy.accepts with
  | some x => ⟨true, x.confidence⟩
  | none => ⟨false, if count + values.length = 0 then .full
      else values.foldl (fun most x => most.max x.confidence) most⟩

theorem outcome_cons (strategy : Strategy) (most : Confidence) (count : Nat) (x : Fuzzy Bool)
    (rest : List (Fuzzy Bool)) :
    outcome strategy most count (x :: rest) =
      if strategy.accepts x then ⟨true, x.confidence⟩
      else outcome strategy (most.max x.confidence) (count + 1) rest := by
  cases h : strategy.accepts x <;> simp [outcome, h, Nat.add_right_comm]

theorem inTurnFrom_noticed {m : Type → Type} [Monad m] [LawfulMonad m] (strategy : Strategy)
    (notice : Fuzzy Bool → m Unit) (most : Confidence) (count : Nat)
    (values : List (Fuzzy Bool)) :
    inTurnFrom strategy most count (values.map (noticed notice)) = (do
      (lookedAt strategy values).forM notice
      pure (outcome strategy most count values, count + (lookedAt strategy values).length)) := by
  induction values generalizing most count with
  | nil => simp [inTurnFrom, outcome, lookedAt]
  | cons x rest ih =>
      rw [List.map_cons, inTurnFrom, noticed, bind_assoc, outcome_cons, lookedAt, throughFirst_cons]
      cases hx : strategy.accepts x with
      | true => simp [hx]
      | false => simp [hx, ih, lookedAt, Nat.add_assoc, Nat.add_comm 1]

theorem sequential_eq (strategy : Strategy) (values : List (Fuzzy Bool)) :
    sequential strategy values =
      (outcome strategy .none 0 values, (lookedAt strategy values).length) := by
  have h := inTurnFrom_noticed (m := Id) strategy (fun _ => pure ()) .none 0 values
  rw [Nat.zero_add] at h
  exact h

/-- Exactly the values up to the first one that is accepted are looked at. -/
theorem inTurn_noticed {m : Type → Type} [Monad m] [LawfulMonad m] (strategy : Strategy)
    (notice : Fuzzy Bool → m Unit) (values : List (Fuzzy Bool)) :
    inTurn strategy (values.map (noticed notice)) = (do
      (lookedAt strategy values).forM notice
      pure (sequential strategy values)) := by
  rw [inTurn, inTurnFrom_noticed, sequential_eq, Nat.zero_add]

theorem outcome_judges (strategy : Strategy) (most : Confidence) (count : Nat)
    (values : List (Fuzzy Bool)) :
    strategy.Judges (outcome strategy most count values) (values.any strategy.accepts) := by
  induction values generalizing most count with
  | nil => exact Strategy.judges_of_false rfl
  | cons x rest ih =>
      rw [outcome_cons, List.any_cons]
      cases hx : strategy.accepts x with
      | true =>
          have hgrants := Strategy.grants_of_accepts hx
          rw [if_pos rfl]
          exact Strategy.judges_of_grants fun _ => hgrants
      | false => exact ih _ _

theorem sequential_judges (strategy : Strategy) (values : List (Fuzzy Bool)) :
    strategy.Judges (sequential strategy values).1 (values.any strategy.accepts) := by
  rw [sequential_eq]
  exact outcome_judges strategy .none 0 values

/-- The largest confidence is enough as soon as the one of an accepted value is. -/
theorem combine_judges (strategy : Strategy) (values : List (Fuzzy Bool)) :
    strategy.Judges (combine strategy values) (values.any strategy.accepts) := by
  cases values with
  | nil => exact Strategy.judges_of_false rfl
  | cons first rest =>
      refine Strategy.judges_of_grants fun hany => ?_
      obtain ⟨x, hx, haccepts⟩ := List.any_eq_true.1 hany
      have hgrants : (first :: rest).any (fun x => strategy.grants x.confidence) = true :=
        List.any_eq_true.2 ⟨x, hx, Strategy.grants_of_accepts haccepts⟩
      exact (Strategy.grants_foldl_max strategy .none (first :: rest)).trans (by
        rw [hgrants, Bool.or_true])

/-- With no value accepted the lazy disjunction is the disjunction of all. -/
theorem sequential_of_none {values : List (Fuzzy Bool)}
    (h : values.any strategy.accepts = false) :
    (sequential strategy values).1 = combine strategy values := by
  have hnone : values.find? strategy.accepts = none :=
    List.find?_eq_none.2 (List.any_eq_false.1 h)
  rw [sequential_eq, outcome, hnone, combine, h]
  cases values <;> simp [Fuzzy.falsity, Fuzzy.certain]

end Disjunction

/-! ## Both collectors, both ways -/

/--
Under a strategy that a configuration may have, the conjunctions of values are
judged, and have as payload, what all values are judged together; the
disjunctions what some value is judged.  The lazy ones look at the values up to
the first one that decides and count them, and where none decides they are the
same as the others.
-/
theorem collectors_agree_with_strategy {config : Config} (hvalid : config.validate = .ok ())
    (values : List (Fuzzy Bool)) :
    let strategy := config.strategy
    (strategy.Judges (Conjunction.sequential strategy values).1 (values.all strategy.accepts) ∧
      strategy.Judges (Conjunction.combine strategy values) (values.all strategy.accepts) ∧
      strategy.Judges (Disjunction.sequential strategy values).1 (values.any strategy.accepts) ∧
      strategy.Judges (Disjunction.combine strategy values) (values.any strategy.accepts)) ∧
    (∀ {m : Type → Type} [Monad m] [LawfulMonad m] (notice : Fuzzy Bool → m Unit),
      Conjunction.inTurn strategy (values.map (noticed notice)) = (do
        (throughFirst (fun x => !strategy.accepts x) values).forM notice
        pure (Conjunction.sequential strategy values)) ∧
      Disjunction.inTurn strategy (values.map (noticed notice)) = (do
        (throughFirst strategy.accepts values).forM notice
        pure (Disjunction.sequential strategy values))) ∧
    ((Conjunction.sequential strategy values).2 =
        (throughFirst (fun x => !strategy.accepts x) values).length ∧
      (Disjunction.sequential strategy values).2 =
        (throughFirst strategy.accepts values).length) ∧
    (values.all strategy.accepts = true →
      (Conjunction.sequential strategy values).1 = Conjunction.combine strategy values) ∧
    (values.any strategy.accepts = false →
      (Disjunction.sequential strategy values).1 = Disjunction.combine strategy values) := by
  intro strategy
  have hbounded : strategy.Bounded := config.bounded_of_validate hvalid
  refine ⟨⟨?_, ?_, ?_, ?_⟩, fun notice => ⟨?_, ?_⟩, ⟨?_, ?_⟩, ?_, ?_⟩
  · exact Conjunction.sequential_judges hbounded values
  · exact Conjunction.combine_judges hbounded values
  · exact Disjunction.sequential_judges strategy values
  · exact Disjunction.combine_judges strategy values
  · exact Conjunction.inTurn_noticed strategy notice values
  · exact Disjunction.inTurn_noticed strategy notice values
  · rw [Conjunction.sequential_eq]
    rfl
  · rw [Disjunction.sequential_eq]
    rfl
  · exact Conjunction.sequential_of_all
  · exact Disjunction.sequential_of_none

/-- A configuration with a threshold of one half. -/
def Config.halfway : Config := { strategy := .threshold ⟨0x3FE0000000000000⟩ }

/-- A true value with a confidence of one quarter. -/
def Fuzzy.doubtful : Fuzzy Bool := .withDegree true ⟨0x3FD0000000000000⟩

/-- A doubtful value between certain ones stops the conjunction, and a certain one the
disjunction. -/
theorem collectors_agree_at_one_half :
    Config.halfway.validate = .ok () ∧
      Config.halfway.strategy.Judges (Conjunction.sequential Config.halfway.strategy
        [.truth, .doubtful, .truth]).1 false ∧
      (Conjunction.sequential Config.halfway.strategy [.truth, .doubtful, .truth]).2 = 2 ∧
      Config.halfway.strategy.Judges (Disjunction.combine Config.halfway.strategy
        [.doubtful, .truth, .doubtful]) true ∧
      (Disjunction.sequential Config.halfway.strategy [.doubtful, .truth, .doubtful]).2 = 2 ∧
      (Conjunction.sequential Config.halfway.strategy [.truth, .truth]).1 =
        Conjunction.combine Config.halfway.strategy [.truth, .truth] := by
  have hvalid : Config.halfway.validate = .ok () := by rfl
  obtain ⟨⟨hall, -, -, -⟩, -, ⟨hconjuncts, -⟩, -, -⟩ :=
    collectors_agree_with_strategy hvalid [.truth, .doubtful, .truth]
  obtain ⟨⟨-, -, -, hany⟩, -, ⟨-, hdisjuncts⟩, -, -⟩ :=
    collectors_agree_with_strategy hvalid [.doubtful, .truth, .doubtful]
  obtain ⟨-, -, -, hsame, -⟩ := collectors_agree_with_strategy hvalid [.truth, .truth]
  exact ⟨hvalid, hall, hconjuncts, hany, hdisjuncts, hsame (by decide)⟩

end Deliberation
