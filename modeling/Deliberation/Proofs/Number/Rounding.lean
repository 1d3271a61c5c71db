import Deliberation.Number.Binary64
import Mathlib.Algebra.Group.Nat.Defs

/-!
# The number nearest to an integer

An integer whose leading bit is bit `k` has a nearest number with exponent `k`,
or `k + 1` after a carry, and the pattern of this number is read off its leading
bits.  Up to `2 ^ 53` every integer is a number itself; beyond this different
integers come to the same number, as far apart as the last bits that are rounded
off.
-/

namespace Deliberation

namespace Binary64

/-! ## Rounding off -/

theorem roundOff_zero (m : Nat) : roundOff m 0 = m := by
  simp [roundOff, Nat.mod_one]

/-- Rounding off drops at most half a unit or adds at most half a unit. -/
theorem roundOff_cases (m bits : Nat) :
    (roundOff m bits = m / 2 ^ bits ∧ 2 * (m % 2 ^ bits) ≤ 2 ^ bits) ∨
      (roundOff m bits = m / 2 ^ bits + 1 ∧ 2 ^ bits ≤ 2 * (m % 2 ^ bits)) := by
  unfold roundOff
  simp only [Nat.pow_eq, Bool.or_eq_true, Bool.and_eq_true, decide_eq_true_eq]
  split
  · exact .inl ⟨rfl, by omega⟩
  · exact .inr ⟨rfl, by omega⟩

/-- A whole number rounded to the fifty-three leading bits. -/
def nearest (m : Nat) : Nat := roundOff m (m.log2 - 52) * 2 ^ (m.log2 - 52)

/-- The significand of a whole number rounded to fifty-three bits; a carry makes it `2 ^ 53`. -/
def leading (m : Nat) : Nat := roundOff m (m.log2 - 52) * 2 ^ (52 - m.log2)

theorem nearest_mul (m : Nat) : nearest m * 2 ^ 52 = leading m * 2 ^ m.log2 := by
  unfold nearest leading
  rw [Nat.mul_assoc, Nat.mul_assoc, ← Nat.pow_add, ← Nat.pow_add]
  congr 2
  omega

/-- Where no bit is rounded off, the significand is the number itself, shifted up. -/
theorem leading_of_lt {m : Nat} (hm : m < 2 ^ 53) : leading m = m * 2 ^ (52 - m.log2) := by
  have hlog : m.log2 - 52 = 0 := by
    rcases Nat.eq_zero_or_pos m with rfl | hpos
    · rfl
    · have := (Nat.log2_lt (Nat.ne_of_gt hpos)).mpr hm
      omega
  rw [leading, hlog, roundOff_zero]

theorem leading_lt {m : Nat} (hm : m < 2 ^ 53) : leading m < 2 ^ 53 := by
  rcases Nat.eq_zero_or_pos m with rfl | hpos
  · decide
  · have hlog : m.log2 < 53 := (Nat.log2_lt (Nat.ne_of_gt hpos)).mpr hm
    rw [leading_of_lt hm]
    calc m * 2 ^ (52 - m.log2) < 2 ^ (m.log2 + 1) * 2 ^ (52 - m.log2) :=
          Nat.mul_lt_mul_of_pos_right Nat.lt_log2_self (Nat.two_pow_pos _)
      _ = 2 ^ 53 := by rw [← Nat.pow_add]; congr 1; omega

/-- The significand has fifty-three bits, or it is the next power of two. -/
theorem leading_bounds {m : Nat} (hm : m ≠ 0) : 2 ^ 52 ≤ leading m ∧ leading m ≤ 2 ^ 53 := by
  have hlow := Nat.log2_self_le hm
  have hhigh := Nat.lt_log2_self (n := m)
  by_cases hlog : m.log2 ≤ 52
  · have hlt : m < 2 ^ 53 :=
      Nat.lt_of_lt_of_le hhigh (Nat.pow_le_pow_right (by decide) (by omega))
    refine ⟨?_, Nat.le_of_lt (leading_lt hlt)⟩
    calc 2 ^ 52 = 2 ^ m.log2 * 2 ^ (52 - m.log2) := by rw [← Nat.pow_add]; congr 1; omega
      _ ≤ m * 2 ^ (52 - m.log2) := Nat.mul_le_mul_right _ hlow
      _ = leading m := (leading_of_lt hlt).symm
  · have hdown : 52 - m.log2 = 0 := by omega
    have hkept : 2 ^ 52 ≤ m / 2 ^ (m.log2 - 52) := by
      rw [Nat.le_div_iff_mul_le (Nat.two_pow_pos _), ← Nat.pow_add]
      exact Nat.le_trans (Nat.pow_le_pow_right (by decide) (by omega)) hlow
    have hkept' : m / 2 ^ (m.log2 - 52) < 2 ^ 53 := by
      rw [Nat.div_lt_iff_lt_mul (Nat.two_pow_pos _), ← Nat.pow_add]
      exact Nat.lt_of_lt_of_le hhigh (Nat.pow_le_pow_right (by decide) (by omega))
    rw [leading, hdown, Nat.pow_zero, Nat.mul_one]
    rcases roundOff_cases m (m.log2 - 52) with ⟨heq, -⟩ | ⟨heq, -⟩ <;> rw [heq] <;> omega

/-- What is rounded off is at most half of the last bit that is kept. -/
theorem nearest_close (m : Nat) :
    2 * m ≤ 2 * nearest m + 2 ^ (m.log2 - 52) ∧ 2 * nearest m ≤ 2 * m + 2 ^ (m.log2 - 52) := by
  have hsplit := Nat.div_add_mod m (2 ^ (m.log2 - 52))
  unfold nearest
  rw [Nat.mul_comm] at hsplit
  rcases roundOff_cases m (m.log2 - 52) with ⟨heq, hrest⟩ | ⟨heq, hrest⟩
  · rw [heq]
    omega
  · have := Nat.mod_lt m (Nat.two_pow_pos (m.log2 - 52))
    rw [heq, Nat.add_one_mul (m / 2 ^ (m.log2 - 52))]
    omega

/-! ## The pattern of an integer -/

/-- The magnitude of the number nearest to a whole number. -/
def pattern (m : Nat) : Nat :=
  if m = 0 then 0 else (m.log2 + 1022) * 2 ^ 52 + leading m

theorem pattern_of_ne_zero {m : Nat} (hm : m ≠ 0) :
    pattern m = (m.log2 + 1022) * 2 ^ 52 + leading m := if_neg hm

theorem pattern_pos {m : Nat} (hm : m ≠ 0) : 0 < pattern m := by
  have := (leading_bounds hm).1
  rw [pattern_of_ne_zero hm]
  omega

/-- Sixty-four bit integers are far from the infinities. -/
theorem pattern_lt {m : Nat} (hm : m ≤ 2 ^ 63) : pattern m < infiniteMagnitude := by
  unfold infiniteMagnitude
  by_cases hzero : m = 0
  · subst hzero
    decide
  · have hlog : m.log2 < 64 := (Nat.log2_lt hzero).mpr (by omega)
    have := (leading_bounds hzero).2
    rw [pattern_of_ne_zero hzero]
    omega

/-- The order of whole numbers is kept strictly below `2 ^ 53`, where nothing is rounded off. -/
theorem pattern_lt_pattern {m n : Nat} (hm : m < 2 ^ 53) (hmn : m < n) :
    pattern m < pattern n := by
  have hn : n ≠ 0 := by omega
  by_cases hzero : m = 0
  · subst hzero
    exact pattern_pos hn
  · rw [pattern_of_ne_zero hzero, pattern_of_ne_zero hn]
    have hbelow := leading_lt hm
    have habove := (leading_bounds hn).1
    have hlog : m.log2 ≤ n.log2 := by
      rw [Nat.le_log2 hn]
      exact Nat.le_trans (Nat.log2_self_le hzero) (Nat.le_of_lt hmn)
    rcases Nat.lt_or_eq_of_le hlog with hless | hsame
    · omega
    · -- with the same leading bit both are below `2 ^ 53`, and the significands are multiples
      have hn53 : n < 2 ^ 53 := by
        have hbits : m.log2 < 53 := (Nat.log2_lt hzero).mpr hm
        exact (Nat.log2_lt hn).mp (by omega)
      have : leading m < leading n := by
        rw [leading_of_lt hm, leading_of_lt hn53, hsame]
        exact Nat.mul_lt_mul_of_pos_right hmn (Nat.two_pow_pos _)
      rw [hsame]
      omega

/-- The pattern tells the rounded number. -/
theorem nearest_eq_of_pattern_eq {m n : Nat} (hm : m ≠ 0) (hn : n ≠ 0)
    (h : pattern m = pattern n) : nearest m = nearest n := by
  -- a carry at exponent `k` gives the pattern of exponent `k + 1` without its further bits
  have carry : ∀ {a b : Nat}, a ≠ 0 → b ≠ 0 → a.log2 < b.log2 → pattern a = pattern b →
      nearest a = nearest b := by
    intro a b ha hb hlog hab
    rw [pattern_of_ne_zero ha, pattern_of_ne_zero hb] at hab
    have hbelow := (leading_bounds ha).2
    have habove := (leading_bounds hb).1
    have hnext : b.log2 = a.log2 + 1 := by omega
    have hfull : leading a = 2 ^ 53 := by omega
    have hbare : leading b = 2 ^ 52 := by omega
    apply Nat.eq_of_mul_eq_mul_right (Nat.two_pow_pos 52)
    rw [nearest_mul, nearest_mul, hfull, hbare, hnext, ← Nat.pow_add, ← Nat.pow_add]
    congr 1
    omega
  rcases Nat.lt_trichotomy m.log2 n.log2 with hless | hsame | hmore
  · exact carry hm hn hless h
  · rw [pattern_of_ne_zero hm, pattern_of_ne_zero hn] at h
    have hlead : leading m = leading n := by
      rw [hsame] at h
      omega
    apply Nat.eq_of_mul_eq_mul_right (Nat.two_pow_pos 52)
    rw [nearest_mul, nearest_mul, hlead, hsame]
  · exact (carry hn hm hmore h.symm).symm

/-- A pattern is the way a rounded number is written with a significand and an exponent. -/
theorem ofParts_roundOff (negative : Bool) (m : Nat) :
    ofParts negative (roundOff m (m.log2 - 52)) ((m.log2 - 52 : Nat) : Int) =
      signed negative (pattern m) := by
  by_cases hzero : m = 0
  · subst hzero
    rfl
  · obtain ⟨hlow, hhigh⟩ := leading_bounds hzero
    have hshift : min (52 - (roundOff m (m.log2 - 52)).log2)
        ((m.log2 - 52 : Nat) + 1074 : Int).toNat = 52 - m.log2 := by
      by_cases hlog : m.log2 ≤ 52
      · have : m.log2 - 52 = 0 := by omega
        rw [this, roundOff_zero]
        omega
      · -- nothing is left to shift, and a carry does not change this
        have hup : 52 - m.log2 = 0 := by omega
        have hkept : 2 ^ 52 ≤ roundOff m (m.log2 - 52) := by
          rw [leading, hup, Nat.pow_zero, Nat.mul_one] at hlow
          exact hlow
        have : 52 ≤ (roundOff m (m.log2 - 52)).log2 := (Nat.le_log2 (by omega)).mpr hkept
        omega
    unfold ofParts
    simp only [hshift, Nat.pow_eq]
    have hsignificand : roundOff m (m.log2 - 52) * 2 ^ (52 - m.log2) = leading m := rfl
    have hexponent : (((m.log2 - 52 : Nat) : Int) - ((52 - m.log2 : Nat) : Int) + 1075).toNat =
        m.log2 + 1023 := by omega
    have hpattern : (m.log2 + 1023) * leadingWeight + (leading m - leadingWeight) = pattern m := by
      rw [pattern_of_ne_zero hzero]
      unfold leadingWeight
      omega
    rw [hsignificand, hexponent, if_neg (by unfold leadingWeight; omega), hpattern]

theorem ofInt_eq (i : Int) : ofInt i = signed (decide (i < 0)) (pattern i.natAbs) :=
  ofParts_roundOff _ _

/-! ## Order -/

section Signed

variable {negative : Bool} {m : Nat}

theorem toNat_bits_signed (hm : m < signWeight) :
    (signed negative m).bits.toNat = if negative then m + signWeight else m := by
  unfold signWeight at *
  cases negative <;> simp only [signed, signWeight, UInt64.toNat_ofNat'] <;> simp <;> omega

theorem magnitude_signed (hm : m < signWeight) : (signed negative m).magnitude = m := by
  unfold magnitude
  rw [toNat_bits_signed hm]
  cases negative
  · exact Nat.mod_eq_of_lt hm
  · simp [Nat.add_mod_right, Nat.mod_eq_of_lt hm]

theorem rank_signed (hm : m < signWeight) :
    (signed negative m).rank = if negative then -(m : Int) else m := by
  unfold rank
  rw [magnitude_signed hm, isNegative, toNat_bits_signed hm]
  cases negative
  · simp [Nat.not_le.mpr hm]
  · simp

end Signed

section Sixtyfour

variable {i j : Int}

theorem pattern_lt_signWeight (hi : i.natAbs ≤ 2 ^ 63) : pattern i.natAbs < signWeight :=
  Nat.lt_trans (pattern_lt hi) (by decide)

theorem isNaN_ofInt (hi : i.natAbs ≤ 2 ^ 63) : (ofInt i).isNaN = false := by
  rw [ofInt_eq, isNaN, magnitude_signed (pattern_lt_signWeight hi)]
  simpa using Nat.le_of_lt (pattern_lt hi)

theorem rank_ofInt (hi : i.natAbs ≤ 2 ^ 63) :
    (ofInt i).rank = if i < 0 then -(pattern i.natAbs : Int) else pattern i.natAbs := by
  rw [ofInt_eq, rank_signed (pattern_lt_signWeight hi)]
  simp

/-- Integers at the same place have the same sign and the same pattern. -/
theorem rank_ofInt_eq_iff (hi : i.natAbs ≤ 2 ^ 63) (hj : j.natAbs ≤ 2 ^ 63) :
    (ofInt i).rank = (ofInt j).rank ↔
      (i < 0 ↔ j < 0) ∧ pattern i.natAbs = pattern j.natAbs := by
  rw [rank_ofInt hi, rank_ofInt hj]
  have pos : ∀ {k : Int}, k < 0 → 0 < pattern k.natAbs := fun hk => pattern_pos (by omega)
  by_cases hineg : i < 0 <;> by_cases hjneg : j < 0
  · simp only [hineg, hjneg, if_true, true_and]
    omega
  · have := pos hineg
    simp only [hineg, hjneg, if_true, if_false, iff_false, not_true, false_and]
    omega
  · have := pos hjneg
    simp only [hineg, hjneg, if_true, if_false, iff_true, false_and, iff_false]
    omega
  · simp only [hineg, hjneg, if_false, true_and]
    omega

/-- Numeric equality of integers is that their nearest numbers are the same, bit by bit. -/
theorem numEq_ofInt (hi : i.natAbs ≤ 2 ^ 63) (hj : j.natAbs ≤ 2 ^ 63) :
    (ofInt i).numEq (ofInt j) = true ↔ ofInt i = ofInt j := by
  have hplace : (ofInt i).numEq (ofInt j) = true ↔ (ofInt i).rank = (ofInt j).rank := by
    simp [numEq, isNaN_ofInt hi, isNaN_ofInt hj]
  rw [hplace]
  constructor
  · intro hrank
    obtain ⟨hsign, hpattern⟩ := (rank_ofInt_eq_iff hi hj).mp hrank
    rw [ofInt_eq, ofInt_eq, hpattern, decide_eq_decide.mpr hsign]
  · intro heq
    rw [heq]

/-- Different integers with the same nearest number are large, and near to each other. -/
theorem near_of_ofInt_eq (hi : i.natAbs ≤ 2 ^ 63) (hj : j.natAbs ≤ 2 ^ 63) (hne : i ≠ j)
    (h : ofInt i = ofInt j) :
    2 ^ 53 ≤ i.natAbs ∧ 2 ^ 53 ≤ j.natAbs ∧ (i - j).natAbs ≤ 2 ^ 10 := by
  obtain ⟨hsign, hpattern⟩ := (rank_ofInt_eq_iff hi hj).mp (congrArg rank h)
  have hneAbs : i.natAbs ≠ j.natAbs := by omega
  -- below `2 ^ 53` a pattern belongs to one whole number only
  have large : ∀ {m n : Nat}, m ≠ n → pattern m = pattern n → 2 ^ 53 ≤ m := by
    intro m n hmn heq
    refine Nat.le_of_not_lt fun hm => ?_
    rcases Nat.lt_or_gt_of_ne hmn with hless | hmore
    · exact Nat.ne_of_lt (pattern_lt_pattern hm hless) heq
    · exact Nat.ne_of_gt (pattern_lt_pattern (Nat.lt_trans hmore hm) hmore) heq
  have hilarge := large hneAbs hpattern
  have hjlarge := large (Ne.symm hneAbs) hpattern.symm
  -- `2 ^ 63` itself is a number; all that is smaller loses at most ten bits
  have close : ∀ {m : Nat}, m ≤ 2 ^ 63 → m ≠ 0 →
      m ≤ nearest m + 2 ^ 9 ∧ nearest m ≤ m + 2 ^ 9 := by
    intro m hm hzero
    rcases Nat.lt_or_eq_of_le hm with hless | rfl
    · have hlog : m.log2 < 63 := (Nat.log2_lt hzero).mpr hless
      have hunit : 2 ^ (m.log2 - 52) ≤ 2 ^ 10 := Nat.pow_le_pow_right (by decide) (by omega)
      have := nearest_close m
      omega
    · decide
  have hsame := nearest_eq_of_pattern_eq (by omega) (by omega) hpattern
  have hiclose := close hi (by omega)
  have hjclose := close hj (by omega)
  refine ⟨hilarge, hjlarge, ?_⟩
  omega

end Sixtyfour

end Binary64

end Deliberation
