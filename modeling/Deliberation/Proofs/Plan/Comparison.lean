import Deliberation.Plan.Expression
import Deliberation.Proofs.Number.Rounding
import Deliberation.Proofs.Value.Opening
import Mathlib.Logic.ExistsUnique

/-!
# Comparisons

Two functions compare values: one tells whether they are equal and takes integers
by their nearest numbers, the other tells how they are ordered and takes integers
as they are.  The comparisons of two expressions fit together exactly when the
two functions agree, and this they do for texts, and for integers unless different
ones come to the same number.
-/

namespace Deliberation

namespace Expression

/-- An operator between two expressions evaluates to true. -/
def Holds (s : Store) (c : Context) (op : BinaryOp) (l r : Expression) : Prop :=
  evaluate s c (.binary op l r) = .ok (.bool true)

/-- The three cases of an order. -/
def orderCases : List BinaryOp := [.less, .equal, .greater]

/-- The operators that compare. -/
def comparisons : List BinaryOp := orderCases ++ [.lessEqual, .greaterEqual, .notEqual]

/-- Exactly one case of the order holds, and the other comparisons are made up of the cases. -/
structure Consistent (s : Store) (c : Context) (l r : Expression) : Prop where
  exactlyOne : ∃! op, op ∈ orderCases ∧ Holds s c op l r
  lessEqual_iff : Holds s c .lessEqual l r ↔ Holds s c .less l r ∨ Holds s c .equal l r
  greaterEqual_iff : Holds s c .greaterEqual l r ↔ Holds s c .greater l r ∨ Holds s c .equal l r
  notEqual_iff : Holds s c .notEqual l r ↔ ¬ Holds s c .equal l r

/-- Two values that are both integers or both texts. -/
inductive Comparable : Value → Value → Prop
  | ints (a b : Int64) : Comparable (.int a) (.int b)
  | texts (a b : String) : Comparable (.text a) (.text b)

/-- Different integers with the same nearest number. -/
def Merged (v w : Value) : Prop :=
  ∃ a b : Int64, v = .int a ∧ w = .int b ∧ a ≠ b ∧
    Binary64.ofInt a.toInt = Binary64.ofInt b.toInt

/-! ## Two tests decide all comparisons -/

/-- What a comparison says of two values, by whether they are equal and how they are ordered. -/
def verdict (same : Bool) (o : Ordering) : BinaryOp → Bool
  | .less => o.isLT
  | .equal => same
  | .greater => o.isGT
  | .lessEqual => o.isLE
  | .greaterEqual => o.isGE
  | .notEqual => !same
  | _ => false

/-- One case of the order holds when equality is the middle case; else two hold or none. -/
theorem exactlyOne_verdict_iff (same : Bool) (o : Ordering) :
    (∃! op, op ∈ orderCases ∧ verdict same o op = true) ↔ (same = true ↔ o = .eq) := by
  constructor
  · rintro ⟨op, ⟨hop, hholds⟩, honly⟩
    have only : ∀ other ∈ orderCases, verdict same o other = true → other = op :=
      fun other hother h => honly other ⟨hother, h⟩
    cases o with
    | lt =>
      cases only .less (by decide) rfl
      exact ⟨fun h => absurd (only .equal (by decide) h) (by decide), nofun⟩
    | eq =>
      simp only [orderCases, List.mem_cons, List.not_mem_nil, or_false] at hop
      rcases hop with rfl | rfl | rfl
      · cases hholds
      · exact ⟨fun _ => rfl, fun _ => hholds⟩
      · cases hholds
    | gt =>
      cases only .greater (by decide) rfl
      exact ⟨fun h => absurd (only .equal (by decide) h) (by decide), nofun⟩
  · intro hagree
    cases o with
    | lt => exact ⟨.less, by simp [orderCases, verdict, hagree]⟩
    | eq => exact ⟨.equal, by simp [orderCases, verdict, hagree]⟩
    | gt => exact ⟨.greater, by simp [orderCases, verdict, hagree]⟩

section Values

variable {s : Store} {c : Context} {l r : Expression} {v w : Value} {o : Ordering}

theorem evaluate_comparison (hl : evaluate s c l = .ok v) (hr : evaluate s c r = .ok w)
    (ho : order s.heap v w = .ok o) {op : BinaryOp} (hop : op ∈ comparisons) :
    evaluate s c (.binary op l r) = .ok (.bool (verdict (equal s.heap v w) o op)) := by
  simp only [comparisons, orderCases, List.cons_append, List.nil_append, List.mem_cons,
    List.not_mem_nil, or_false] at hop
  -- no comparison is decided by its left side alone
  have hopen : decided op v = none := by
    rcases hop with rfl | rfl | rfl | rfl | rfl | rfl <;> rfl
  have hboth : evaluate s c (.binary op l r) = applyBinary s.heap op v w := by
    simp [evaluate, hl, hr, hopen, bind, Except.bind]
  rw [hboth]
  rcases hop with rfl | rfl | rfl | rfl | rfl | rfl <;>
    simp [applyBinary, orderTest, ho, verdict, bind, Except.bind, pure, Except.pure]

/-- Comparisons are consistent where equality is the middle case of the order. -/
theorem consistent_iff (hl : evaluate s c l = .ok v) (hr : evaluate s c r = .ok w)
    (ho : order s.heap v w = .ok o) :
    Consistent s c l r ↔ (equal s.heap v w = true ↔ o = .eq) := by
  have holds : ∀ op ∈ comparisons, Holds s c op l r ↔ verdict (equal s.heap v w) o op = true := by
    intro op hop
    rw [Holds, evaluate_comparison hl hr ho hop]
    simp
  have hone : (∃! op, op ∈ orderCases ∧ Holds s c op l r) ↔
      ∃! op, op ∈ orderCases ∧ verdict (equal s.heap v w) o op = true :=
    existsUnique_congr fun op => and_congr_right fun hop =>
      holds op (List.mem_append_left _ hop)
  constructor
  · intro h
    exact (exactlyOne_verdict_iff _ _).mp (hone.mp h.exactlyOne)
  · intro hagree
    refine ⟨hone.mpr ((exactlyOne_verdict_iff _ _).mpr hagree), ?_, ?_, ?_⟩
    · rw [holds .lessEqual (by decide), holds .less (by decide), holds .equal (by decide)]
      simp only [verdict, hagree]
      cases o <;> decide
    · rw [holds .greaterEqual (by decide), holds .greater (by decide), holds .equal (by decide)]
      simp only [verdict, hagree]
      cases o <;> decide
    · rw [holds .notEqual (by decide), holds .equal (by decide)]
      simp [verdict]

/-! ## Integers and texts -/

theorem natAbs_toInt_le (a : Int64) : a.toInt.natAbs ≤ 2 ^ 63 := by
  have := a.le_toInt
  have := a.toInt_lt
  omega

theorem equal_int (h : Heap) (a b : Int64) :
    equal h (.int a) (.int b) = true ↔ Binary64.ofInt a.toInt = Binary64.ofInt b.toInt := by
  rw [← Binary64.numEq_ofInt (natAbs_toInt_le a) (natAbs_toInt_le b)]
  simp [equal, Heap.asNumber, Heap.snapshot_of_not_box]

theorem equal_text (h : Heap) (a b : String) :
    equal h (.text a) (.text b) = true ↔ a = b := by
  have hequal : h.equal (.text a) (.text b) = true ↔ a = b := by
    rw [Heap.equal_iff_of_marks h rfl rfl, Datum.text.injEq]
  simp [equal, Heap.asNumber, Heap.snapshot_of_not_box, Heap.mismatch, hequal]

/-- Integers and texts are always ordered, and equal values have the middle place. -/
theorem order_of_comparable (h : Heap) (hvw : Comparable v w) :
    ∃ o, order h v w = .ok o ∧ (o = .eq ↔ v = w) := by
  cases hvw with
  | ints a b =>
    refine ⟨compare a.toInt b.toInt, rfl, ?_⟩
    rw [Std.compare_eq_iff_eq, Int64.toInt_inj, Datum.int.injEq]
  | texts a b =>
    refine ⟨compare a b, rfl, ?_⟩
    rw [Std.compare_eq_iff_eq, Datum.text.injEq]

/-- Values that are equal without being the same are integers with one nearest number. -/
theorem equal_iff_of_comparable (h : Heap) (hvw : Comparable v w) :
    equal h v w = true ↔ v = w ∨ Merged v w := by
  cases hvw with
  | ints a b =>
    rw [equal_int, Datum.int.injEq]
    constructor
    · intro hnearest
      by_cases hab : a = b
      · exact .inl hab
      · exact .inr ⟨a, b, rfl, rfl, hab, hnearest⟩
    · rintro (rfl | ⟨a', b', ha, hb, -, hnearest⟩)
      · rfl
      · cases ha
        cases hb
        exact hnearest
  | texts a b =>
    rw [equal_text, Datum.text.injEq]
    constructor
    · exact .inl
    · rintro (rfl | ⟨a', b', ha, -⟩)
      · rfl
      · cases ha

theorem not_merged_self (v : Value) : ¬ Merged v v := by
  rintro ⟨a, b, hv, hw, hne, -⟩
  rw [hv, Datum.int.injEq] at hw
  exact hne hw

/--
Comparisons of integers and of texts give a truth value, and are consistent unless
they are of different integers with the same nearest number.  Such integers are
equal and yet one is less than the other; they are at least `2 ^ 53` away from
zero and at most `2 ^ 10` from each other.
-/
theorem comparison_consistent_iff (hl : evaluate s c l = .ok v) (hr : evaluate s c r = .ok w)
    (hvw : Comparable v w) :
    (∀ op ∈ comparisons, ∃ b, evaluate s c (.binary op l r) = .ok (.bool b)) ∧
      (Consistent s c l r ↔ ¬ Merged v w) ∧
      (Merged v w →
        Holds s c .equal l r ∧ (Holds s c .less l r ∨ Holds s c .greater l r) ∧
          ∃ a b : Int64, v = .int a ∧ w = .int b ∧ 2 ^ 53 ≤ a.toInt.natAbs ∧
            2 ^ 53 ≤ b.toInt.natAbs ∧ (a.toInt - b.toInt).natAbs ≤ 2 ^ 10) := by
  obtain ⟨o, ho, hmiddle⟩ := order_of_comparable s.heap hvw
  have hequal := equal_iff_of_comparable s.heap hvw
  have hevaluate : ∀ op ∈ comparisons,
      evaluate s c (.binary op l r) = .ok (.bool (verdict (equal s.heap v w) o op)) :=
    fun op hop => evaluate_comparison hl hr ho hop
  refine ⟨fun op hop => ⟨_, hevaluate op hop⟩, ?_, ?_⟩
  · rw [consistent_iff hl hr ho, hequal, hmiddle]
    constructor
    · intro hagree hmerged
      exact not_merged_self v (by rwa [← hagree.mp (.inr hmerged)] at hmerged)
    · intro hmerged
      exact or_iff_left hmerged
  · intro hmerged
    have hne : o ≠ .eq := by
      intro heq
      exact not_merged_self v (by rwa [← hmiddle.mp heq] at hmerged)
    refine ⟨?_, ?_, ?_⟩
    · rw [Holds, hevaluate .equal (by decide), verdict, hequal.mpr (.inr hmerged)]
    · cases o with
      | lt => exact .inl (hevaluate .less (by decide))
      | eq => exact absurd rfl hne
      | gt => exact .inr (hevaluate .greater (by decide))
    · obtain ⟨a, b, hv, hw, hab, hnearest⟩ := hmerged
      exact ⟨a, b, hv, hw, Binary64.near_of_ofInt_eq (natAbs_toInt_le a) (natAbs_toInt_le b)
        (fun h => hab (Int64.toInt_inj.mp h)) hnearest⟩

/-- Up to `2 ^ 53` neighbours are told apart. -/
theorem comparison_consistent_at_neighbours :
    Consistent .empty .empty (.constant (.int 9007199254740991))
      (.constant (.int 9007199254740992)) := by
  refine (comparison_consistent_iff rfl rfl (.ints _ _)).2.1.mpr ?_
  rintro ⟨a, b, hv, hw, -, hnearest⟩
  cases hv
  cases hw
  exact absurd hnearest (by decide)

/-- The first two integers that come to the same number are equal, and one is less. -/
theorem comparison_inconsistent_at_neighbours :
    let l : Expression := .constant (.int 9007199254740992)
    let r : Expression := .constant (.int 9007199254740993)
    Holds .empty .empty .equal l r ∧ Holds .empty .empty .less l r ∧
      ¬ Consistent .empty .empty l r := by
  intro l r
  have hequal : Holds .empty .empty .equal l r := rfl
  have hless : Holds .empty .empty .less l r := rfl
  refine ⟨hequal, hless, fun h => ?_⟩
  exact absurd (h.exactlyOne.unique ⟨by decide, hequal⟩ ⟨by decide, hless⟩) (by decide)

end Values

end Expression

end Deliberation
