import Deliberation.Number.Decimal

/-!
# Fuzzy values

A fuzzy value is a payload with a confidence between zero and one.  A strategy
collapses a fuzzy truth value to a crisp one.  A conjunction or a disjunction
of several fuzzy truth values is formed either lazily, up to the first value
that decides it, or at once from values that are all known.
-/

namespace Deliberation

/-- A number between zero and one. -/
structure Confidence where
  degree : Binary64
  bounded : (Binary64.zero.le degree && degree.le Binary64.one) = true

namespace Confidence

def full : Confidence := ⟨Binary64.one, by decide⟩

def none : Confidence := ⟨Binary64.zero, by decide⟩

theorem bounded_of_not_lt {x : Binary64} (hNumber : x.isNaN = false)
    (hLow : x.lt Binary64.zero = false) (hHigh : Binary64.one.lt x = false) :
    (Binary64.zero.le x && x.le Binary64.one) = true := by
  have hZero : Binary64.zero.isNaN = false := by decide
  have hOne : Binary64.one.isNaN = false := by decide
  simp only [Binary64.lt, Binary64.le, hNumber, hZero, hOne, Bool.not_false, Bool.true_and,
    decide_eq_false_iff_not, Int.not_lt, Bool.and_eq_true, decide_eq_true_eq] at *
  exact ⟨hLow, hHigh⟩

/-- The nearest confidence to a number; a not-a-number gives no confidence. -/
def clamp (x : Binary64) : Confidence :=
  if hNumber : x.isNaN then none
  else if hLow : x.lt Binary64.zero then none
  else if hHigh : Binary64.one.lt x then full
  else ⟨x, bounded_of_not_lt (by simpa using hNumber) (by simpa using hLow)
    (by simpa using hHigh)⟩

/-- The smaller of two confidences, the second one when they are equal. -/
def min (c d : Confidence) : Confidence :=
  if c.degree.lt d.degree then c else d

/-- The larger of two confidences, the second one when they are equal. -/
def max (c d : Confidence) : Confidence :=
  if d.degree.lt c.degree then c else d

end Confidence

/-- A payload with a confidence. -/
structure Fuzzy (α : Type) where
  value : α
  confidence : Confidence

namespace Fuzzy

variable {α β : Type}

/-- A fuzzy value with the confidence nearest to a number. -/
def withDegree (value : α) (degree : Binary64) : Fuzzy α := ⟨value, .clamp degree⟩

def certain (value : α) : Fuzzy α := ⟨value, .full⟩

def map (f : α → β) (x : Fuzzy α) : Fuzzy β := ⟨f x.value, x.confidence⟩

def truth : Fuzzy Bool := certain true

def falsity : Fuzzy Bool := certain false

/-- The opposite payload with the same confidence. -/
def complement (x : Fuzzy Bool) : Fuzzy Bool := x.map not

/-- The text of the payload, and the confidence with two decimal places. -/
def render (payload : α → String) (x : Fuzzy α) : String :=
  payload x.value ++ " (" ++ x.confidence.degree.fixed 2 ++ ")"

end Fuzzy

/-- How a fuzzy truth value becomes a crisp one. -/
inductive Strategy where
  /-- The payload as it is. -/
  | crisp
  /-- The payload, but only with at least this confidence. -/
  | threshold (least : Binary64)
deriving DecidableEq

namespace Strategy

/-- Whether a fuzzy truth value counts as true. -/
def accepts : Strategy → Fuzzy Bool → Bool
  | crisp, x => x.value
  | threshold least, x => x.value && least.le x.confidence.degree

/-- Small and very large thresholds are written with an exponent, whole ones end in `.0`. -/
def thresholdFormat : NumberFormat := ⟨fun point => -4 < point && point ≤ 16, true, false, .up⟩

/-- The text of a strategy in a summary. -/
def render : Strategy → String
  | crisp => "Crisp"
  | threshold least => "Threshold(" ++ thresholdFormat.write least ++ ")"

end Strategy

/-! ## Conjunction -/

namespace Conjunction

/--
Evaluate values in turn up to the first one that is not accepted.  A value that
stops the evaluation gives its own confidence to the result; otherwise the
result has the smallest confidence met.  `count` is the number of values that
were evaluated.
-/
def inTurnFrom {m : Type → Type} [Monad m] (strategy : Strategy) (least : Confidence)
    (count : Nat) : List (m (Fuzzy Bool)) → m (Fuzzy Bool × Nat)
  | [] => pure (⟨true, least⟩, count)
  | value :: rest => do
      let x ← value
      if strategy.accepts x then
        inTurnFrom strategy (least.min x.confidence) (count + 1) rest
      else
        pure (⟨false, x.confidence⟩, count + 1)

/-- Evaluate values in turn, starting with full confidence. -/
def inTurn {m : Type → Type} [Monad m] (strategy : Strategy)
    (values : List (m (Fuzzy Bool))) : m (Fuzzy Bool × Nat) :=
  inTurnFrom strategy .full 0 values

/-- The lazy conjunction of values that are known already. -/
def sequential (strategy : Strategy) (values : List (Fuzzy Bool)) : Fuzzy Bool × Nat :=
  Id.run (inTurn strategy (values.map pure))

/-- The conjunction of all values, with the smallest confidence among them. -/
def combine (strategy : Strategy) (values : List (Fuzzy Bool)) : Fuzzy Bool :=
  ⟨values.all strategy.accepts, values.foldl (fun least x => least.min x.confidence) .full⟩

end Conjunction

/-! ## Disjunction -/

namespace Disjunction

/--
Evaluate values in turn up to the first one that is accepted.  That value gives
its own confidence to the result; without any value the result is certainly
false, and otherwise it has the largest confidence met.  `count` is the number
of values that were evaluated.
-/
def inTurnFrom {m : Type → Type} [Monad m] (strategy : Strategy) (most : Confidence)
    (count : Nat) : List (m (Fuzzy Bool)) → m (Fuzzy Bool × Nat)
  | [] => pure (⟨false, if count = 0 then .full else most⟩, count)
  | value :: rest => do
      let x ← value
      if strategy.accepts x then
        pure (⟨true, x.confidence⟩, count + 1)
      else
        inTurnFrom strategy (most.max x.confidence) (count + 1) rest

/-- Evaluate values in turn, starting with no confidence. -/
def inTurn {m : Type → Type} [Monad m] (strategy : Strategy)
    (values : List (m (Fuzzy Bool))) : m (Fuzzy Bool × Nat) :=
  inTurnFrom strategy .none 0 values

/-- The lazy disjunction of values that are known already. -/
def sequential (strategy : Strategy) (values : List (Fuzzy Bool)) : Fuzzy Bool × Nat :=
  Id.run (inTurn strategy (values.map pure))

/-- The disjunction of all values, with the largest confidence among them. -/
def combine (strategy : Strategy) (values : List (Fuzzy Bool)) : Fuzzy Bool :=
  if values.isEmpty then .falsity
  else ⟨values.any strategy.accepts, values.foldl (fun most x => most.max x.confidence) .none⟩

end Disjunction

end Deliberation
