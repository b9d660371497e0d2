import Intreccio.Foundation.FloatOrder

/-! Rounding integers to binary64, and reading integers back.
An integer that a significand can hold is converted exactly, which covers all up to `2 ^ 53`; larger
ones never fall below that bound. So next to a float below the bound integers compare exactly; beyond
it rounding still keeps the order.
-/

namespace Binary64

/-- The positive integer `n` rounded to nearest, ties to even. -/
def nearest (n : Nat) : Nat := if n.log2 ≤ 52 then n else units n 1 * 2 ^ (n.log2 - 52)

variable {n : Nat}

theorem lastBit_nat (positive : n ≠ 0) : lastBit n 1 = (n.log2 : Int) - 52 := by
  have low : ¬ (n < 2 ^ n.log2) := Nat.not_lt.mpr (Nat.log2_self_le positive)
  have one : Nat.log2 1 = 0 := by decide
  have top : leading n 1 = n.log2 := by simp [leading, one, low]
  rw [lastBit, top]
  omega

theorem units_small (positive : n ≠ 0) (small : n.log2 ≤ 52) : units n 1 = n * 2 ^ (52 - n.log2) := by
  have up : (-((n.log2 : Int) - 52)).toNat = 52 - n.log2 := by omega
  have down : ((n.log2 : Int) - 52).toNat = 0 := by omega
  simp only [units, lastBit_nat positive, up, down, pow_zero, Nat.mul_one, Nat.div_one, Nat.mod_one]
  exact if_neg (by omega)

theorem units_large (positive : n ≠ 0) (large : 52 < n.log2)
    : units n 1
      = if 2 ^ (n.log2 - 52) < 2 * (n % 2 ^ (n.log2 - 52))
            ∨ (2 ^ (n.log2 - 52) = 2 * (n % 2 ^ (n.log2 - 52)) ∧ n / 2 ^ (n.log2 - 52) % 2 = 1)
        then n / 2 ^ (n.log2 - 52) + 1 else n / 2 ^ (n.log2 - 52) := by
  have up : (-((n.log2 : Int) - 52)).toNat = 0 := by omega
  have down : ((n.log2 : Int) - 52).toNat = n.log2 - 52 := by omega
  simp only [units, lastBit_nat positive, up, down, pow_zero, Nat.mul_one, Nat.one_mul]

theorem quotient_bounds (positive : n ≠ 0) (large : 52 < n.log2)
    : 2 ^ 52 ≤ n / 2 ^ (n.log2 - 52) ∧ n / 2 ^ (n.log2 - 52) < 2 ^ 53 := by
  have split : 2 ^ n.log2 = 2 ^ 52 * 2 ^ (n.log2 - 52) := by
    rw [← pow_add]
    congr 1
    omega
  have size := Nat.two_pow_pos (n.log2 - 52)
  have low := Nat.log2_self_le positive
  have high : n < 2 ^ (n.log2 + 1) := Nat.lt_log2_self
  rw [split] at low
  rw [pow_succ, split] at high
  refine ⟨(Nat.le_div_iff_mul_le size).mpr low, (Nat.div_lt_iff_lt_mul size).mpr ?_⟩
  calc n < 2 ^ 52 * 2 ^ (n.log2 - 52) * 2 := high
    _ = 2 ^ 53 * 2 ^ (n.log2 - 52) := by ring

/-- The rounded significand has 53 bits, or is the first one that has more. -/
theorem units_bounds (positive : n ≠ 0) : 2 ^ 52 ≤ units n 1 ∧ units n 1 ≤ 2 ^ 53 := by
  rcases Nat.lt_or_ge 52 n.log2 with large | small
  · obtain ⟨low, high⟩ := quotient_bounds positive large
    rw [units_large positive large]
    split <;> omega
  · have low := Nat.log2_self_le positive
    have high : n < 2 ^ (n.log2 + 1) := Nat.lt_log2_self
    rw [units_small positive small]
    constructor
    · calc 2 ^ 52 = 2 ^ n.log2 * 2 ^ (52 - n.log2) := by
            rw [← pow_add]
            congr 1
            omega
        _ ≤ n * 2 ^ (52 - n.log2) := Nat.mul_le_mul_right _ low
    · calc n * 2 ^ (52 - n.log2) ≤ 2 ^ (n.log2 + 1) * 2 ^ (52 - n.log2) :=
            Nat.mul_le_mul_right _ high.le
        _ = 2 ^ 53 := by
            rw [← pow_add]
            congr 1
            omega

theorem unit_pos : 0 < unit := by
  rw [unit]
  generalize 1074 = e
  exact Nat.two_pow_pos e

def roundBits (n : Nat) : Nat := (n.log2 + 1022) * 2 ^ 52 + units n 1

theorem roundBits_lt (positive : n ≠ 0) (bound : n ≤ 2 ^ 64) : roundBits n < infBits := by
  have top : n.log2 < 65 := (Nat.log2_lt positive).mpr (by omega)
  have high := (units_bounds positive).2
  simp only [roundBits, infBits]
  omega

theorem round_nat {sign : Bool} (positive : n ≠ 0) (bound : n ≤ 2 ^ 64)
    : round sign n 1 = ofMagnitude sign (roundBits n) := by
  have shift : (((n.log2 : Int) - 52) + 1074).toNat = n.log2 + 1022 := by omega
  rw [round, if_neg positive, lastBit_nat positive, shift]
  exact congrArg _ (Nat.min_eq_right (roundBits_lt positive bound).le)

theorem spread_roundBits (positive : n ≠ 0) : spread (roundBits n) = nearest n * unit := by
  obtain ⟨low, high⟩ := units_bounds positive
  rw [roundBits, spread_of_fields low high, nearest]
  rcases Nat.lt_or_ge 52 n.log2 with large | small
  · rw [if_neg (Nat.not_le.mpr large), Nat.mul_assoc, unit, ← pow_add,
      show n.log2 - 52 + 1074 = n.log2 + 1022 by omega]
  · rw [if_pos small, units_small positive small, Nat.mul_assoc, unit, ← pow_add,
      show 52 - n.log2 + (n.log2 + 1022) = 1074 by omega]

/-- The integers of 64 bits, with or without a sign. -/
def InRange (i : Int) : Prop := i.natAbs ≤ 2 ^ 64

variable {i : Int}

theorem magnitudeBits_ofInt (range : InRange i)
    : (ofInt i).magnitudeBits < infBits
      ∧ spread (ofInt i).magnitudeBits = nearest i.natAbs * unit
      ∧ (ofInt i).negative = decide (i < 0) := by
  have small : infBits < 2 ^ 63 := by decide
  by_cases null : i.natAbs = 0
  · have zero : i = 0 := Int.natAbs_eq_zero.mp null
    subst zero
    exact ⟨by decide, by simp [ofInt, round, nearest], by simp [ofInt, round]⟩
  · have bits := roundBits_lt null range
    rw [ofInt, round_nat null range, magnitudeBits_ofMagnitude (bits.trans small),
      negative_ofMagnitude (bits.trans small)]
    exact ⟨bits, spread_roundBits null, rfl⟩

theorem finite_ofInt (range : InRange i) : (ofInt i).Finite :=
  (magnitudeBits_ofInt range).1

theorem scaled_ofInt (range : InRange i)
    : (ofInt i).scaled
      = if i < 0 then -((nearest i.natAbs * unit : Nat) : Int) else (nearest i.natAbs * unit : Nat) := by
  obtain ⟨_, size, sign⟩ := magnitudeBits_ofInt range
  rw [scaled_eq, size, sign]
  simp only [decide_eq_true_eq]

theorem nearest_of_significand {s e : Nat} (small : s < 2 ^ 53) : nearest (s * 2 ^ e) = s * 2 ^ e := by
  set n := s * 2 ^ e with value
  rw [nearest]
  split
  · rfl
  · have large : 52 < n.log2 := by omega
    have positive : n ≠ 0 := by
      intro zero
      rw [zero] at large
      exact absurd large (by decide)
    -- The significand has at most 53 bits, so the power of two covers the bits that are cut.
    have below : 2 ^ n.log2 < 2 ^ (53 + e) := by
      calc 2 ^ n.log2 ≤ s * 2 ^ e := Nat.log2_self_le positive
        _ < 2 ^ 53 * 2 ^ e := Nat.mul_lt_mul_of_pos_right small (Nat.two_pow_pos e)
        _ = 2 ^ (53 + e) := (pow_add 2 53 e).symm
    have cut : n.log2 - 52 ≤ e := by
      have := (Nat.pow_lt_pow_iff_right (by decide : 1 < 2)).mp below
      omega
    have whole : 2 ^ (n.log2 - 52) ∣ n := (pow_dvd_pow 2 cut).trans (Dvd.intro_left s rfl)
    have rest : n % 2 ^ (n.log2 - 52) = 0 := Nat.mod_eq_zero_of_dvd whole
    have size := Nat.two_pow_pos (n.log2 - 52)
    rw [units_large positive large, rest, if_neg (by omega)]
    exact Nat.div_mul_cancel whole

theorem nearest_small (small : n ≤ 2 ^ 53) : nearest n = n := by
  rcases Nat.lt_or_ge n (2 ^ 53) with below | full
  · simpa using nearest_of_significand (s := n) (e := 0) below
  · obtain rfl : n = 2 ^ 53 := Nat.le_antisymm small full
    exact nearest_of_significand (s := 1) (e := 53) (by decide)

theorem nearest_large (large : 2 ^ 53 ≤ n) : 2 ^ 53 ≤ nearest n := by
  have positive : n ≠ 0 := by omega
  have top : 53 ≤ n.log2 := (Nat.le_log2 positive).mpr large
  rw [nearest, if_neg (by omega)]
  calc 2 ^ 53 ≤ 2 ^ 52 * 2 ^ (n.log2 - 52) := by
        rw [← pow_add]
        exact Nat.pow_le_pow_right (by decide) (by omega)
    _ ≤ units n 1 * 2 ^ (n.log2 - 52) := Nat.mul_le_mul_right _ (units_bounds positive).1

/-- The integer has a binary64 of the same value. -/
def Exact (i : Int) : Prop := (ofInt i).scaled = i * unit

theorem exact_of_nearest (range : InRange i) (kept : nearest i.natAbs = i.natAbs) : Exact i := by
  rw [Exact, scaled_ofInt range, kept, Nat.cast_mul]
  split
  · rw [← Int.neg_mul, show -(i.natAbs : Int) = i by omega]
  · rw [show (i.natAbs : Int) = i by omega]

theorem exact_small (small : i.natAbs ≤ 2 ^ 53) : Exact i :=
  exact_of_nearest (by unfold InRange; omega) (nearest_small small)

theorem spread_significand (bits : Nat) : ∃ s e, s < 2 ^ 53 ∧ spread bits = s * 2 ^ e := by
  refine ⟨_, _, ?_, rfl⟩
  split <;> omega

variable {f : Binary64}

/-- The integers among the values of binary64 are exact. -/
theorem exact_of_value (range : InRange i) (value : f.scaled = i * unit) : Exact i := by
  refine exact_of_nearest range ?_
  obtain ⟨s, e, small, size⟩ := spread_significand f.magnitudeBits
  have whole : s * 2 ^ e = i.natAbs * unit := by
    rw [← size, ← natAbs_scaled, value, Int.natAbs_mul, Int.natAbs_natCast]
  rcases Nat.le_total 1074 e with above | below
  · have split : s * 2 ^ e = s * 2 ^ (e - 1074) * unit := by
      rw [Nat.mul_assoc, unit, ← pow_add, Nat.sub_add_cancel above]
    rw [Nat.eq_of_mul_eq_mul_right unit_pos (whole.symm.trans split)]
    exact nearest_of_significand small
  · have split : i.natAbs * unit = i.natAbs * 2 ^ (1074 - e) * 2 ^ e := by
      rw [Nat.mul_assoc, unit, ← pow_add, Nat.sub_add_cancel below]
    have cut := Nat.eq_of_mul_eq_mul_right (Nat.two_pow_pos e) (whole.trans split)
    have fewer := Nat.le_mul_of_pos_right i.natAbs (Nat.two_pow_pos (1074 - e))
    exact nearest_small (by omega)

theorem magnitude_eq (f : Binary64)
    : f.magnitude
      = (spread f.magnitudeBits / unit, decide (spread f.magnitudeBits % unit = 0)) := by
  rw [← significand_mul_shift, magnitude]
  split
  case isTrue above =>
    have whole : f.significand * 2 ^ f.shift = f.significand * 2 ^ (f.shift - 1074) * unit := by
      rw [Nat.mul_assoc, unit, ← pow_add, Nat.sub_add_cancel above]
    rw [whole, Nat.mul_div_cancel _ unit_pos, Nat.mul_mod_left]
    simp
  case isFalse below =>
    have split : unit = 2 ^ (1074 - f.shift) * 2 ^ f.shift := by
      rw [unit, ← pow_add, Nat.sub_add_cancel (by omega)]
    have positive := Nat.two_pow_pos f.shift
    rw [split, Nat.mul_div_mul_right _ _ positive, Nat.mul_mod_mul_right]
    simp

theorem neg_ediv_unit (n : Nat)
    : (-(n : Int)) / unit = -((n / unit : Nat) : Int) - if n % unit = 0 then 0 else 1 := by
  rw [Int.neg_ediv, Int.sign_natCast_of_ne_zero unit_pos.ne', Int.natCast_div]
  simp only [Int.natCast_dvd_natCast, Nat.dvd_iff_mod_eq_zero]

theorem floorInt_eq (f : Binary64) : f.floorInt = f.scaled / unit := by
  rw [floorInt, truncate, magnitude_eq, scaled_eq]
  cases f.negative with
  | false =>
    generalize unit = u
    simp
  | true =>
    rw [if_pos rfl, if_pos rfl, neg_ediv_unit]
    generalize unit = u
    by_cases whole : spread f.magnitudeBits % u = 0 <;> simp [whole]

theorem ceilInt_eq (f : Binary64) : f.ceilInt = -(-f.scaled / unit) := by
  rw [ceilInt, truncate, magnitude_eq, scaled_eq]
  cases f.negative with
  | false =>
    simp only [Bool.false_eq_true, if_false, neg_ediv_unit]
    generalize unit = u
    by_cases whole : spread f.magnitudeBits % u = 0
    · simp [whole]
    · simp [whole, Int.add_comm]
  | true =>
    generalize unit = u
    simp

/-- The integers up to a value are those up to its floor. -/
theorem le_floorInt : i ≤ f.floorInt ↔ i * unit ≤ f.scaled := by
  rw [floorInt_eq]
  exact Int.le_ediv_iff_mul_le (by exact_mod_cast unit_pos)

/-- The integers from a value on are those from its ceiling on. -/
theorem ceilInt_le : f.ceilInt ≤ i ↔ f.scaled ≤ i * unit := by
  rw [ceilInt_eq, neg_le, Int.le_ediv_iff_mul_le (by exact_mod_cast unit_pos), Int.neg_mul, neg_le_neg_iff]

theorem scaled_of_isInteger (whole : f.isInteger = true) : f.scaled = f.truncate * unit := by
  simp only [isInteger, magnitude_eq, decide_eq_true_eq] at whole
  have size : spread f.magnitudeBits = spread f.magnitudeBits / unit * unit :=
    (Nat.div_mul_cancel (Nat.dvd_of_mod_eq_zero whole.2)).symm
  rw [scaled_eq, truncate, magnitude_eq]
  split
  · rw [Int.neg_mul, ← Nat.cast_mul, ← size]
  · rw [← Nat.cast_mul, ← size]

theorem isInteger_of_scaled (finite : f.Finite) (value : f.scaled = i * unit)
    : f.isInteger = true ∧ f.truncate = i := by
  have whole : f.isInteger = true := by
    simp only [isInteger, magnitude_eq, decide_eq_true_eq]
    refine ⟨?_, Nat.mod_eq_zero_of_dvd ?_⟩
    · have bits : f.magnitudeBits < infBits := finite
      rw [exponent_eq]
      simp only [infBits] at bits
      omega
    · rw [← natAbs_scaled]
      exact Int.natCast_dvd.mp (Dvd.intro_left i value.symm)
  refine ⟨whole, ?_⟩
  rw [scaled_of_isInteger whole] at value
  exact Int.eq_of_mul_eq_mul_right (by exact_mod_cast unit_pos.ne') value

/-- An integer beyond the bound stays beyond it, on its side. -/
theorem ofInt_beyond (range : InRange i) (large : 2 ^ 53 ≤ i.natAbs)
    : (2 ^ 53 * unit ≤ (ofInt i).scaled ∧ 2 ^ 53 * unit ≤ i * unit)
      ∨ ((ofInt i).scaled ≤ -(2 ^ 53 * unit) ∧ i * unit ≤ -(2 ^ 53 * unit)) := by
  have rounded : 2 ^ 53 * unit ≤ nearest i.natAbs * unit :=
    Nat.mul_le_mul_right unit (nearest_large large)
  have exact : 2 ^ 53 * unit ≤ i.natAbs * unit := Nat.mul_le_mul_right unit large
  rw [scaled_ofInt range]
  split
  · refine Or.inr ⟨by omega, ?_⟩
    rw [show i = -(i.natAbs : Int) by omega, Int.neg_mul]
    exact Int.neg_le_neg (by exact_mod_cast exact)
  · refine Or.inl ⟨by exact_mod_cast rounded, ?_⟩
    rw [show i = (i.natAbs : Int) by omega]
    exact_mod_cast exact

/-- The value is closer to zero than `2 ^ 53`. -/
def Below53 (f : Binary64) : Prop := f.scaled.natAbs < 2 ^ 53 * unit

theorem scaled_of_isZero (zero : f.isZero = true) : f.scaled = 0 := by
  rw [scaled_eq, isZero_iff.mp zero]
  simp

theorem below53_of_isZero (zero : f.isZero = true) : f.Below53 := by
  rw [Below53, scaled_of_isZero zero]
  exact Nat.mul_pos (by decide) unit_pos

theorem lt_ofInt (small : f.Below53) (range : InRange i)
    : f.scaled < (ofInt i).scaled ↔ f.scaled < i * unit := by
  unfold Below53 at small
  rcases Nat.le_total i.natAbs (2 ^ 53) with within | beyond
  · rw [show (ofInt i).scaled = i * unit from exact_small within]
  · have side := ofInt_beyond range beyond
    omega

theorem ofInt_lt (small : f.Below53) (range : InRange i)
    : (ofInt i).scaled < f.scaled ↔ i * unit < f.scaled := by
  unfold Below53 at small
  rcases Nat.le_total i.natAbs (2 ^ 53) with within | beyond
  · rw [show (ofInt i).scaled = i * unit from exact_small within]
  · have side := ofInt_beyond range beyond
    omega

theorem ofInt_eq (small : f.Below53) (range : InRange i)
    : (ofInt i).scaled = f.scaled ↔ i * unit = f.scaled := by
  have below := ofInt_lt small range
  have above := lt_ofInt small range
  omega

/-- A positive integer and its rounding lie between the same powers of two. -/
theorem nearest_bounds (positive : n ≠ 0) : 2 ^ n.log2 ≤ nearest n ∧ nearest n ≤ 2 ^ (n.log2 + 1) := by
  rw [nearest]
  split
  case isTrue => exact ⟨Nat.log2_self_le positive, Nat.lt_log2_self.le⟩
  case isFalse large =>
    obtain ⟨low, high⟩ := units_bounds positive
    have split : 2 ^ n.log2 = 2 ^ 52 * 2 ^ (n.log2 - 52) := by
      rw [← pow_add]
      congr 1
      omega
    rw [pow_succ, split]
    constructor
    · exact Nat.mul_le_mul_right _ low
    · calc units n 1 * 2 ^ (n.log2 - 52) ≤ 2 ^ 53 * 2 ^ (n.log2 - 52) := Nat.mul_le_mul_right _ high
        _ = 2 ^ 52 * 2 ^ (n.log2 - 52) * 2 := by ring

/-- Rounding keeps the order. Between two powers of two it rounds the quotients by one unit. -/
theorem nearest_mono {m : Nat} (le : m ≤ n) : nearest m ≤ nearest n := by
  by_cases zero : m = 0
  · simp [zero, nearest]
  have positive : n ≠ 0 := by omega
  have logs : m.log2 ≤ n.log2 := (Nat.le_log2 positive).mpr ((Nat.log2_self_le zero).trans le)
  rcases Nat.lt_or_ge m.log2 n.log2 with below | above
  · calc nearest m ≤ 2 ^ (m.log2 + 1) := (nearest_bounds zero).2
      _ ≤ 2 ^ n.log2 := Nat.pow_le_pow_right (by decide) below
      _ ≤ nearest n := (nearest_bounds positive).1
  · have same : m.log2 = n.log2 := Nat.le_antisymm logs above
    rw [nearest, nearest, same]
    split
    case isTrue => exact le
    case isFalse large =>
      refine Nat.mul_le_mul_right _ ?_
      have quotients : m / 2 ^ (n.log2 - 52) ≤ n / 2 ^ (n.log2 - 52) := Nat.div_le_div_right le
      have split := Nat.div_add_mod m (2 ^ (n.log2 - 52))
      have split' := Nat.div_add_mod n (2 ^ (n.log2 - 52))
      rw [units_large zero (by omega), units_large positive (by omega), same]
      rcases Nat.lt_or_ge (m / 2 ^ (n.log2 - 52)) (n / 2 ^ (n.log2 - 52)) with less | more
      · split <;> split <;> omega
      · have equal : m / 2 ^ (n.log2 - 52) = n / 2 ^ (n.log2 - 52) := Nat.le_antisymm quotients more
        rw [equal] at split ⊢
        have rests : m % 2 ^ (n.log2 - 52) ≤ n % 2 ^ (n.log2 - 52) := by omega
        split <;> split <;> omega

/-- Conversion keeps the order. -/
theorem rank_ofInt_mono {j : Int} (left : InRange i) (right : InRange j) (le : i ≤ j) : (ofInt i).rank ≤ (ofInt j).rank := by
  rw [rank_le_rank, scaled_ofInt left, scaled_ofInt right]
  have up (h : i.natAbs ≤ j.natAbs) : nearest i.natAbs * unit ≤ nearest j.natAbs * unit :=
    Nat.mul_le_mul_right _ (nearest_mono h)
  have down (h : j.natAbs ≤ i.natAbs) : nearest j.natAbs * unit ≤ nearest i.natAbs * unit :=
    Nat.mul_le_mul_right _ (nearest_mono h)
  generalize nearest i.natAbs * unit = a at up down ⊢
  generalize nearest j.natAbs * unit = b at up down ⊢
  split <;> split <;> omega
end Binary64
